import ApiSuite.Flow.Fragment
import ApiSuite.Main
import ApiSuite.Proofs.Expression.Reading
import ApiSuite.Proofs.Flow.Walk
import ApiSuite.Proofs.Values.Shadowing
import ApiSuite.Proofs.Template.Path
import ApiSuite.Proofs.Values.Keyed
import ApiSuite.Proofs.Expression.Confinement
import ApiSuite.Proofs.Flow.Reach
import ApiSuite.Proofs.Template.Filling
import ApiSuite.Proofs.Values.Trust
import ApiSuite.Proofs.Expression.Crash
import ApiSuite.Proofs.Json.Writing
import ApiSuite.Proofs.Template.Containment
import ApiSuite.Proofs.Flow.Rearrangement
import ApiSuite.Proofs.Template.Agreement
import ApiSuite.Proofs.Values.Hit
import ApiSuite.Proofs.Values.Batch
import ApiSuite.Proofs.Values.Required
import ApiSuite.Proofs.Expression.Dependence
import ApiSuite.Proofs.Values.References
import ApiSuite.Proofs.Project.BadDocuments
import ApiSuite.Proofs.Values.Environment
import ApiSuite.Proofs.Project.Walk
import ApiSuite.Proofs.Project.Listing
import ApiSuite.Proofs.Project.Readers
import ApiSuite.Proofs.Template.Finding
import ApiSuite.Proofs.Template.Concatenation
import ApiSuite.Proofs.Template.Wrapping
import ApiSuite.Proofs.Template.Addressing
import ApiSuite.Proofs.Values.Override
import ApiSuite.Proofs.Values.Settling
import ApiSuite.Proofs.Values.Fallback
import ApiSuite.Proofs.Values.Verbatim
import ApiSuite.Proofs.Values.Table
import ApiSuite.Proofs.Json.Numerals
import ApiSuite.Proofs.Json.Texts
import ApiSuite.Proofs.Json.Reading
import ApiSuite.Proofs.Flow.Tables
import ApiSuite.Proofs.Values.Marks
import ApiSuite.Proofs.Yaml.Reach
import ApiSuite.Proofs.Yaml.Order
import ApiSuite.Proofs.Yaml.Frames
import ApiSuite.Proofs.Yaml.Entries
import ApiSuite.Proofs.Yaml.Ranges
import ApiSuite.Proofs.Project.Groups
import ApiSuite.Proofs.Project.Alternatives
import ApiSuite.Proofs.Yaml.LineRanges
import ApiSuite.Proofs.Project.CharSets
import ApiSuite.Proofs.Project.DoubleStar
import ApiSuite.Proofs.Project.Endings
import ApiSuite.Proofs.Template.Dependence
import ApiSuite.Proofs.Flow.Fragments
import ApiSuite.Proofs.Template.Usage
import ApiSuite.Proofs.Project.RequestLines
import ApiSuite.Proofs.Flow.Printing
import ApiSuite.Proofs.Expression.Faults
