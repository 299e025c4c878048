import ApiSuite.Json.Printer
import ApiSuite.Json.Reader
import ApiSuite.Schema.Basic

/-!
# Flows

A **flow** is a graph of steps joined by links. The step whose path is `start` is where the
flow begins. A flow may carry **subflows**, graphs of their own, which run before or after
the main steps or, untagged, beside them. Steps, links, subflows and flows all carry
attributes, texts under text keys; in a document an attribute may have any value, and is
read as the compact JSON of that value.
-/

namespace ApiSuite

/-- Attributes, in document order. -/
abbrev Attributes := List (String × String)

/-- What has to happen for a link to be taken. -/
inductive LinkEvent where
  | finish
  | error
  | cancel
  | delay
  | resume
deriving DecidableEq, Repr

/-- When a subflow runs, relative to the main steps. -/
inductive Phase where
  | before
  | after
deriving DecidableEq, Repr

/-- An edge from the step that holds it to the step with the identifier `target`. -/
structure Link where
  attributes : Option Attributes
  id : String
  target : String
  event : Option LinkEvent
  result : Option String
deriving DecidableEq, Repr

/-- A node of a flow. -/
structure Step where
  attributes : Option Attributes
  id : String
  name : String
  path : String
  links : Option (List Link)
deriving DecidableEq, Repr

/-- An auxiliary graph of steps. -/
structure Subflow where
  attributes : Option Attributes
  id : String
  name : String
  steps : Option (List Step)
deriving DecidableEq, Repr

/-- A flow. Its name is its path relative to the tests, its source the text it was read
from, where that is kept. -/
structure Flow where
  attributes : Option Attributes
  name : String
  path : String
  steps : List Step
  subflows : Option (List Subflow)
  source : Option String
deriving DecidableEq, Repr

/-- The attributes that flows are interpreted by. -/
inductive AttributeKey where
  | phase
  | subflow
  | values
  | returns
deriving DecidableEq, Repr

/-- The spelling of an attribute key. -/
def AttributeKey.name : AttributeKey → String
  | .phase => "when"
  | .subflow => "subflow"
  | .values => "values"
  | .returns => "return"

/-- The attribute under a key. -/
def attribute? (attributes : Option Attributes) (key : AttributeKey) : Option String :=
  (attributes.getD []).lookup key.name

/-- The path of the step that a flow or subflow begins with. -/
def startPath : String := "start"

/-- Whether a step is one that a flow or subflow begins with. -/
def Step.isStart (s : Step) : Bool := s.path == startPath

/-- The links of a step. -/
def Step.linkList (s : Step) : List Link := s.links.getD []

/-- The steps of a subflow. -/
def Subflow.stepList (s : Subflow) : List Step := s.steps.getD []

/-- The subflows of a flow. -/
def Flow.subflowList (f : Flow) : List Subflow := f.subflows.getD []

/-- The spelling of a phase. -/
def Phase.name : Phase → String
  | .before => "Before"
  | .after => "After"

/-- When a subflow runs; none for one that runs beside the main steps. -/
def Subflow.phase (s : Subflow) : Option Phase :=
  match attribute? s.attributes .phase with
  | some "Before" => some .before
  | some "After" => some .after
  | _ => none

/-! ### Reading -/

/-- The words for the events of a link. -/
def LinkEvent.words : List (String × LinkEvent) :=
  [("Finish", .finish), ("Error", .error), ("Cancel", .cancel), ("Delay", .delay),
    ("Resume", .resume)]

/-- The spelling of an event. -/
def LinkEvent.name : LinkEvent → String
  | .finish => "Finish"
  | .error => "Error"
  | .cancel => "Cancel"
  | .delay => "Delay"
  | .resume => "Resume"

/-- The entries of an attributes object with their keys and values as texts; entries with the
null value are dropped. -/
def attributeTexts : List (Value × Value) → Except Value.TextError (List (Value × Value))
  | [] => .ok []
  | (k, v) :: rest =>
    if v.isNull then attributeTexts rest
    else do
      let key ← k.display
      let value ←
        match v with
        | .str s => pure s
        | v => Json.print .compact v
      let more ← attributeTexts rest
      pure ((.str key, .str value) :: more)

/-- Attributes. A number too large to be written is an issue; that JSON has no form for a value is
a crash. -/
def readAttributes : Schema.Check (Option Attributes)
  | .object es =>
    match attributeTexts es with
    | .ok texts => (Schema.object Schema.text (.object texts)).map some
    | .error .hugeNumeral => Schema.reject .hugeNumeral (.object es)
    | .error e => .crashed (.noText e)
  | v => Schema.orNull (Schema.object Schema.text) v

/-- The attributes of a flow element. -/
def attributesField (es : List (Value × Value)) : Schema.Checked (Option Attributes) :=
  Schema.defaulted "attributes" none readAttributes es

open Schema in
/-- A link. -/
def Link.read : Check Link :=
  record "Link" fun es =>
    Link.mk <$> attributesField es <*> required "id" text es <*> required "to" text es <*>
      optional "event" (choice LinkEvent.words) es <*> optional "result" text es

open Schema in
/-- A step. -/
def Step.read : Check Step :=
  record "Step" fun es =>
    Step.mk <$> attributesField es <*> required "id" text es <*> defaulted "name" "" text es <*>
      defaulted "path" "" text es <*> optional "links" (list Link.read) es

open Schema in
/-- A subflow. -/
def Subflow.read : Check Subflow :=
  record "Subflow" fun es =>
    Subflow.mk <$> attributesField es <*> required "id" text es <*>
      defaulted "name" "" text es <*> optional "steps" (list Step.read) es

open Schema in
/-- The main steps of a flow, none if they are null. -/
def readSteps : Check (List Step) := fun v =>
  if v.isNull then .valid [] else list Step.read v

open Schema in
/-- A flow. -/
def Flow.read : Check Flow :=
  record "Flow" fun es =>
    Flow.mk <$> attributesField es <*> defaulted "name" "" text es <*>
      defaulted "path" "" text es <*> defaulted "steps" [] readSteps es <*>
      optional "subflows" (list Subflow.read) es <*> optional "source" text es

/-! ### Writing -/

open Schema in
/-- A link as a value. -/
def Link.toValue (sparse : Bool) (l : Link) : Value :=
  ofRecord sparse
    [("attributes", ofOption ofTextFields l.attributes), ("id", .str l.id), ("to", .str l.target),
      ("event", ofOption (fun e => .str (LinkEvent.name e)) l.event),
      ("result", Value.ofText? l.result)]

open Schema in
/-- A step as a value. -/
def Step.toValue (sparse : Bool) (s : Step) : Value :=
  ofRecord sparse
    [("attributes", ofOption ofTextFields s.attributes), ("id", .str s.id),
      ("name", .str s.name), ("path", .str s.path),
      ("links", ofOption (fun ls => .list (ls.map (Link.toValue sparse))) s.links)]

open Schema in
/-- A subflow as a value. -/
def Subflow.toValue (sparse : Bool) (s : Subflow) : Value :=
  ofRecord sparse
    [("attributes", ofOption ofTextFields s.attributes), ("id", .str s.id),
      ("name", .str s.name),
      ("steps", ofOption (fun ss => .list (ss.map (Step.toValue sparse))) s.steps)]

open Schema in
/-- A flow as a value. -/
def Flow.toValue (sparse : Bool) (f : Flow) : Value :=
  ofRecord sparse
    [("attributes", ofOption ofTextFields f.attributes), ("name", .str f.name),
      ("path", .str f.path), ("steps", .list (f.steps.map (Step.toValue sparse))),
      ("subflows", ofOption (fun ss => .list (ss.map (Subflow.toValue sparse))) f.subflows),
      ("source", Value.ofText? f.source)]

end ApiSuite
