import ApiSuite.Proofs.Project.Documents
import ApiSuite.Proofs.Yaml.Reading

/-!
# The two readers of YAML

A YAML document is read for its value alone, or for its value with the lines of its keys. The two
readers take the same steps, but differ in where they begin to guard them: the one that tells of
lines has looked at the characters of the text before. So on a text that holds a character that no
document may hold, the one says that the document is no YAML, and the other crashes
(`ApiSuite.Document.readers_compared`).

On all other texts they come to the same. That rests on `ApiSuite.Document.readYaml_cases`: no
failure after the look at the characters is of the kind that the two tell of in different ways. They
come to the same also where the text spells a day or a number that there is none of, which is no
agreement though, since both crash there.
-/

namespace ApiSuite.Document

open Yaml

/-- The readers agree on a text: both give the same value, or both say in the same way that the text
is no YAML. -/
def ReadersAgree (name : Option String) (contents : String) : Prop :=
  (∃ v ranges, loadYaml name contents = .ok v ∧
    loadYamlWithLines name contents = .ok (v, ranges)) ∨
  ∃ line, loadYaml name contents = .error (yamlFault name line) ∧
    loadYamlWithLines name contents = .error (yamlFault name line)

section Readers

variable {name : Option String} {contents : String}

/-- Readers agree unless they are told of a character by its own failure, or of a crash. -/
theorem readersAgree_iff :
    ReadersAgree name contents ↔
      readYaml contents ≠ .error .forbidden ∧ ¬CrashesAsYaml contents := by
  unfold ReadersAgree loadYaml loadYamlWithLines CrashesAsYaml
  cases readYaml contents with
  | ok read =>
    obtain ⟨root, v⟩ := read
    cases hv : v.isObject <;> simp [hv]
  | error e => cases e <;> simp [faultOf, yamlFault]

/-- What is asked of the characters of a text is the one way to their failure. -/
theorem readYaml_forbidden_iff :
    readYaml contents = .error .forbidden ↔ contents.toList.all isAllowed = false := by
  have hcases := readYaml_cases contents
  split at hcases
  · rename_i hallowed
    rw [hallowed]
    refine ⟨fun h => ?_, nofun⟩
    cases hcases .forbidden h
  · exact ⟨fun _ => Bool.eq_false_iff.mpr ‹_›, fun _ => hcases⟩

/-- Both readers go on with what is read in the same way, a forbidden character apart. -/
theorem readers_eq (hread : readYaml contents ≠ .error .forbidden) :
    (loadYamlWithLines name contents).map Prod.fst = loadYaml name contents := by
  unfold loadYamlWithLines loadYaml
  cases hcontents : readYaml contents with
  | ok read =>
    obtain ⟨root, v⟩ := read
    cases hv : v.isObject <;> simp [hv, Except.map]
  | error e =>
    cases e with
    | forbidden => exact absurd hcontents hread
    | malformed | crash => rfl

/-- A reader fails as its document does. -/
theorem loadYaml_fault {fault : Fault} (hread : FailsAs Failure.isOfContent (readYaml contents))
    (hfault : loadYaml name contents = .error fault) :
    (∃ m : Mark, fault = yamlFault name (some (m.line + 1))) ∨
      ∃ c : Crash, c.isOfSpelling ∧ fault = .crash c := by
  unfold loadYaml at hfault
  cases hcontents : readYaml contents with
  | ok read => simp [hcontents] at hfault
  | error e =>
    have he : e.isOfContent := hread e hcontents
    obtain rfl : faultOf name e = fault := by simpa [hcontents] using hfault
    cases e with
    | malformed m => exact .inl ⟨m, rfl⟩
    | forbidden => cases he
    | crash c => exact .inr ⟨c, he, rfl⟩

end Readers

/-- **The two readers agree** on the texts of characters that documents may hold, but for the texts
that crash them. On such characters they come to the same in any case: to a value, to a failure at a
line, or to a crash on a number, a day, a word or a character that the text spells and there is none
of. On any other text the one tells that the document is no YAML, at no line, and the other
crashes. -/
theorem readers_compared (name : Option String) (contents : String) :
    (ReadersAgree name contents ↔
      contents.toList.all isAllowed = true ∧ ¬CrashesAsYaml contents) ∧
    if contents.toList.all isAllowed then
      (loadYamlWithLines name contents).map Prod.fst = loadYaml name contents ∧
        ∀ fault, loadYaml name contents = .error fault →
          (∃ m : Mark, fault = yamlFault name (some (m.line + 1))) ∨
            ∃ c : Crash, c.isOfSpelling ∧ fault = .crash c
    else
      loadYaml name contents = .error (yamlFault name none) ∧
        loadYamlWithLines name contents = .error (.crash .forbiddenCharacter) := by
  refine ⟨?_, ?_⟩
  · rw [readersAgree_iff, ne_eq, readYaml_forbidden_iff, Bool.not_eq_false]
  · have hcases := readYaml_cases contents
    split at hcases
    · rename_i hallowed
      rw [if_pos hallowed]
      have hread : readYaml contents ≠ .error .forbidden := by
        rw [ne_eq, readYaml_forbidden_iff, hallowed]
        simp
      exact ⟨readers_eq hread, fun fault => loadYaml_fault hcases⟩
    · rename_i hforbidden
      rw [if_neg hforbidden]
      simp [loadYaml, loadYamlWithLines, hcases, faultOf]

/-- A month there is none of crashes both readers. -/
example : HasCrash (loadYaml none "2001-13-01\n") ∧
    HasCrash (loadYamlWithLines none "2001-13-01\n") := by decide +kernel

/-- A control character: the reader of values tells of the document, the reader of lines crashes. -/
theorem controlCharacter_splits_readers :
    ¬(∀ name contents, ReadersAgree name contents) ∧
      loadYaml (some "a.yaml") "a: \u0001\n" = .error (yamlFault (some "a.yaml") none) ∧
      loadYamlWithLines (some "a.yaml") "a: \u0001\n" =
        .error (.crash .forbiddenCharacter) := by
  have hread : readYaml "a: \u0001\n" = .error .forbidden :=
    readYaml_forbidden_iff.mpr (by decide)
  refine ⟨fun hall => ?_, ?_, ?_⟩
  · exact (readersAgree_iff.mp (hall none "a: \u0001\n")).1 hread
  · simp [loadYaml, hread, faultOf]
  · simp [loadYamlWithLines, hread]

end ApiSuite.Document
