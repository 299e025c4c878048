import ApiSuite.Value.Order
import ApiSuite.Yaml.Node
import ApiSuite.Yaml.Spelling

/-!
# The content of nodes

A node is read by its tag. The **level** of a node says when it is read: the content of a
collection is one level below the collection, and nodes of one level are read in the order of
the document. `ApiSuite.Yaml.Built` carries a value together with the steps of its reading
that decide whether there is one, and `ApiSuite.Yaml.Built.run` takes these in their order.

A mapping may take over the entries of others by the merge key. These come before its own
entries, so that its own take precedence. The value key of a mapping that is read is a text
like others from then on, also where an alias stands for it. Before, it is the key of the
value that a mapping read as a scalar stands for, and no value by itself.
-/

namespace ApiSuite.Yaml

/-- Something that decides whether a document can be read. -/
inductive Step where
  | failure (e : Failure)
  /-- The value key at a place becomes a text like others. -/
  | demotion (m : Mark)
  /-- The value key at a place is read by itself. -/
  | mention (m : Mark)
  /-- A mapping is read as a scalar for the node at `reader`, by its value key at `key`. What
  has been read is not read again. -/
  | reliance (reader mapping key : Mark)

/-- A step with the level of the node that it belongs to. -/
abbrev Leveled := Nat × Step

/-- A value with the steps of its reading. -/
structure Built (α : Type) where
  value : α
  steps : List Leveled

/-- The failure that steps end in, given the places of the value keys that have become texts
before, and of the nodes that have been read by such keys. -/
def failureOf (demoted readers : List Mark) : List Step → Option Failure
  | [] => none
  | .failure e :: _ => some e
  | .demotion m :: steps => failureOf (m :: demoted) readers steps
  | .mention m :: steps =>
    if demoted.contains m then failureOf demoted readers steps else some (.malformed m)
  | .reliance reader mapping key :: steps =>
    if demoted.contains key && !readers.contains reader then some (.malformed mapping)
    else failureOf demoted (reader :: readers) steps

/-- The steps in the order in which they are taken: by level, and then as they stand. -/
def inOrder (steps : List Leveled) : List Step :=
  (steps.mergeSort fun a b => decide (a.1 ≤ b.1)).map (·.2)

/-- The value, if nothing failed. -/
def Built.run {α : Type} (b : Built α) : Except Failure α :=
  match failureOf [] [] (inOrder b.steps) with
  | none => .ok b.value
  | some e => .error e

/-- A failure at a place, with its level. -/
def failedAt (level : Nat) (m : Mark) : Leveled := (level, .failure (.malformed m))

/-- The value null after a failure. -/
def Built.failed (f : Leveled) : Built Value := ⟨.null, [f]⟩

/-- What a crash may have prevented. -/
def Built.ofCrash {α : Type} (level : Nat) (f : α → Value) : Except Crash α → Built Value
  | .ok a => ⟨f a, []⟩
  | .error c => .failed (level, .failure (.crash c))

/-- Whether a tag is one of a collection. -/
def Tag.isCollection : Tag → Bool
  | .list | .map | .set | .pairs | .orderedMap => true
  | _ => false

mutual

/-- The text of a node that is read as a scalar. A mapping stands for the value it holds under
the value key. -/
def Node.text : Node → Except Failure String
  | .scalar _ text _ => .ok text
  | .map o entries => textAmong o.mark entries
  | .list o _ | .cycle _ o => .error (.malformed o.mark)

/-- The text of a mapping at a place that is read as a scalar, by its entries. -/
def textAmong (m : Mark) : List (Node × Node) → Except Failure String
  | [] => .error (.malformed m)
  | (k, v) :: es => if k.tag == .value then v.text else textAmong m es

end

/-- A node that is read as a scalar, given its text. -/
def builtScalar (level : Nat) (tag : Tag) (m : Mark) (text : String) : Built Value :=
  match tag with
  | .null => ⟨.null, []⟩
  | .bool => .ofCrash level .bool (spelledBool text)
  | .int => .ofCrash level .int (spelledInt text)
  | .float => .ofCrash level .float (spelledFloat text)
  | .timestamp => .ofCrash level id (spelledTimestamp text)
  | .binary =>
    match spelledOctets? text with
    | some octets => ⟨.bytes octets, []⟩
    | none => .failed (failedAt level m)
  | .str => ⟨.str text, []⟩
  | .value => ⟨.str text, [(level, .mention m)]⟩
  | _ => .failed (failedAt level m)

mutual

/-- The steps of finding the text of a node that is read as a scalar for a reader. -/
def Node.textSteps (reader : Mark) : Node → List Step
  | .map o entries => textStepsAmong reader o.mark entries
  | _ => []

/-- The steps of finding the text of a mapping at a place, by its entries. -/
def textStepsAmong (reader m : Mark) : List (Node × Node) → List Step
  | [] => []
  | (k, v) :: es =>
    if k.tag == .value then .reliance reader m k.mark :: v.textSteps reader
    else textStepsAmong reader m es

end

/-- A node that is read as a scalar. -/
def builtText (level : Nat) (tag : Tag) (n : Node) : Built Value :=
  match n.text with
  | .ok text =>
    let built := builtScalar level tag n.mark text
    { built with steps := (n.textSteps n.mark).map (level, ·) ++ built.steps }
  | .error e =>
    match tag with
    | .merge | .other _ => .failed (failedAt level n.mark)
    | .value => ⟨.null, [(level, .mention n.mark), (level, .failure e)]⟩
    | _ => .failed (level, .failure e)

/-- A collection that is tagged as another kind of collection. -/
def mistaken (level : Nat) (tag : Tag) (m : Mark) : Built Value :=
  match tag with
  | .map => ⟨.object [], [failedAt (level + 1) m]⟩
  | .set => ⟨.set [], [failedAt (level + 1) m]⟩
  | _ => ⟨.list [], [failedAt (level + 1) m]⟩

/-- Whether a value can be the key of an entry. -/
def isKeyValue : Value → Bool
  | .list _ | .object _ | .set _ => false
  | _ => true

/-- The entries of a mapping as they are read: those taken over and its own, with the steps of
both, and the steps of preparing the mapping, which come before all others. -/
structure Entries where
  merged : List (Value × Value)
  mergedSteps : List Leveled
  own : List (Value × Value)
  ownSteps : List Leveled
  preparation : List Leveled

/-- No entries. -/
def Entries.none : Entries := ⟨[], [], [], [], []⟩

/-- The entries of a mapping, those taken over first. -/
def Entries.all (e : Entries) : List (Value × Value) := e.merged ++ e.own

/-- The steps of the entries of a mapping. -/
def Entries.entrySteps (e : Entries) : List Leveled := e.mergedSteps ++ e.ownSteps

/-- All steps of a mapping. -/
def Entries.steps (e : Entries) : List Leveled := e.preparation ++ e.entrySteps

/-- Entries with a step of preparation before all others. -/
def Entries.after (step : Leveled) (e : Entries) : Entries :=
  { e with preparation := step :: e.preparation }

/-- Entries with those of another mapping taken over before what they have taken over. -/
def Entries.takeOver (e inner : Entries) : Entries :=
  { e with
    merged := inner.all ++ e.merged
    mergedSteps := inner.entrySteps ++ e.mergedSteps
    preparation := inner.preparation ++ e.preparation }

/-- The entries of one mapping and those of further ones, which give way to them and so come
first. -/
def Entries.beside (first further : Entries) : Entries :=
  { Entries.none with
    own := further.all ++ first.all
    ownSteps := further.entrySteps ++ first.entrySteps
    preparation := first.preparation ++ further.preparation }

/-- Entries with one more before them. -/
def Entries.add (level : Nat) (m : Mark) (key value : Built Value) (e : Entries) : Entries :=
  let unusable := if isKeyValue key.value then [] else [failedAt level m]
  { e with
    own := (key.value, value.value) :: e.own
    ownSteps := key.steps ++ unusable ++ value.steps ++ e.ownSteps }

/-- Entries as an object; a later entry replaces the value of an earlier one of its key. -/
def Entries.object (e : Entries) : Value :=
  .object (e.all.foldl (fun es (k, v) => Value.insert k v es) [])

/-- The keys of entries as a set. -/
def Entries.keys (e : Entries) : Value :=
  .set (e.all.foldl (fun ks (k, _) => Value.insertMember k ks) [])

mutual

/-- The value of a node at a level. -/
def Node.built (level : Nat) : Node → Built Value
  | .cycle isMap _ => ⟨if isMap then .object [] else .list [], []⟩
  | .scalar tag text m =>
    if tag.isCollection then mistaken level tag m else builtScalar level tag m text
  | .list o items =>
    match o.tag with
    | .list =>
      let built := builtItems (level + 1) items
      ⟨.list built.value, built.steps⟩
    | .pairs | .orderedMap =>
      let built := builtPairs (level + 1) items
      ⟨.list built.value, built.steps⟩
    | .map | .set => mistaken level o.tag o.mark
    | _ => builtText level o.tag (.list o items)
  | .map o entries =>
    match o.tag with
    | .map =>
      let es := builtEntries (level + 1) entries
      ⟨es.object, es.steps⟩
    | .set =>
      let es := builtEntries (level + 1) entries
      ⟨es.keys, es.steps⟩
    | .list | .pairs | .orderedMap => mistaken level o.tag o.mark
    | _ => builtText level o.tag (.map o entries)

/-- The values of items at a level. -/
def builtItems (level : Nat) : List Node → Built (List Value)
  | [] => ⟨[], []⟩
  | n :: ns =>
    let first := n.built level
    let rest := builtItems level ns
    ⟨first.value :: rest.value, first.steps ++ rest.steps⟩

/-- The pairs that items at a level hold, each being a mapping of one entry. -/
def builtPairs (level : Nat) : List Node → Built (List Value)
  | [] => ⟨[], []⟩
  | n :: ns =>
    let rest := builtPairs level ns
    match n with
    | .map _ [(k, v)] =>
      let key := k.built level
      let value := v.built level
      ⟨.tuple [key.value, value.value] :: rest.value,
        key.steps ++ value.steps ++ rest.steps⟩
    | .cycle _ _ => rest
    | n => ⟨rest.value, failedAt level n.mark :: rest.steps⟩

/-- The entries of a mapping at a level. -/
def builtEntries (level : Nat) : List (Node × Node) → Entries
  | [] => .none
  | (k, v) :: es =>
    let rest := builtEntries level es
    if k.tag == .merge then
      match v with
      | .map _ inner => rest.takeOver (builtEntries level inner)
      | .list _ items => rest.takeOver (builtSources level items)
      | .cycle _ _ => rest
      | v => rest.after (failedAt level v.mark)
    else if k.tag == .value then
      (rest.add level k.mark (builtText level .str k) (v.built level)).after
        (level, .demotion k.mark)
    else rest.add level k.mark (k.built level) (v.built level)

/-- The entries taken over from a list of mappings, the first taking precedence. -/
def builtSources (level : Nat) : List Node → Entries
  | [] => .none
  | n :: ns =>
    let rest := builtSources level ns
    match n with
    | .map _ inner => (builtEntries level inner).beside rest
    | .cycle _ _ => rest
    | n => rest.after (failedAt level n.mark)

end

/-- The value of a document, null if it is empty. -/
def Node.read : Option Node → Except Failure Value
  | none => .ok .null
  | some n => (n.built 0).run

end ApiSuite.Yaml
