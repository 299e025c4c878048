import ApiSuite.Yaml.Content

/-!
# Nodes after their reading

A mapping is **settled** by its reading: the entries that it takes over stand in it before its
own, in place of the merge key, and its value key is a text like others. What a mapping holds
that is read as a scalar is not read, and stays as it is written, unless an alias elsewhere
stands for it and is read.
-/

namespace ApiSuite.Yaml

mutual

/-- The names of the lists and mappings that are read as such when a node is read. -/
def Node.namesRead : Node → List String
  | .scalar _ _ _ | .cycle _ _ => []
  | .list o items =>
    if o.tag.isCollection then o.anchor.toList ++ namesReadInItems items else []
  | .map o entries =>
    if o.tag.isCollection then o.anchor.toList ++ namesReadInEntries entries else []

/-- The names of the lists and mappings that are read as such when items are read. -/
def namesReadInItems : List Node → List String
  | [] => []
  | n :: ns => n.namesRead ++ namesReadInItems ns

/-- The names of the lists and mappings that are read as such when entries are read. -/
def namesReadInEntries : List (Node × Node) → List String
  | [] => []
  | (k, v) :: es =>
    let rest := namesReadInEntries es
    if k.tag == .merge then
      match v with
      | .map o inner => o.anchor.toList ++ namesReadInEntries inner ++ rest
      | .list _ items => namesReadInSources items ++ rest
      | _ => rest
    else k.namesRead ++ v.namesRead ++ rest

/-- The names of the lists and mappings that are read as such when mappings are taken over. -/
def namesReadInSources : List Node → List String
  | [] => []
  | n :: ns =>
    match n with
    | .map o inner => o.anchor.toList ++ namesReadInEntries inner ++ namesReadInSources ns
    | _ => namesReadInSources ns

end

/-- What has been done to the nodes of a document by reading it. -/
structure Effect where
  /-- The names of the collections that are read as such. -/
  read : List String
  /-- The places of the value keys that have become texts. -/
  demoted : List Mark

/-- The effect of reading a document. -/
def Effect.ofRoot (root : Node) : Effect :=
  { read := root.namesRead
    demoted := (root.built 0).steps.filterMap fun (_, step) =>
      match step with
      | .demotion m => some m
      | _ => none }

/-- The tag that a node with a tag at a place has after the reading. -/
def Effect.tag (e : Effect) (tag : Tag) (m : Mark) : Tag :=
  if tag == .value && e.demoted.contains m then .str else tag

/-- The opening that a collection has after the reading. -/
def Effect.opening (e : Effect) (o : Opening) : Opening := { o with tag := e.tag o.tag o.mark }

/-- Whether a collection is read as such, given whether it stands where it would be. -/
def Effect.reads (e : Effect) (reached : Bool) (o : Opening) : Bool :=
  (reached && o.tag.isCollection) || o.anchor.any e.read.contains

mutual

/-- A node after the reading, given whether it is read where it stands. -/
def Node.settled (e : Effect) (reached : Bool) : Node → Node
  | .scalar tag text m => .scalar (e.tag tag m) text m
  | .cycle isMap o => .cycle isMap (e.opening o)
  | .list o items => .list (e.opening o) (settledItems e (e.reads reached o) items)
  | .map o entries =>
    if e.reads reached o then
      let (merged, own) := settledEntries e entries
      .map (e.opening o) (merged ++ own)
    else .map (e.opening o) (unreadEntries e entries)

/-- Items after the reading. -/
def settledItems (e : Effect) (reached : Bool) : List Node → List Node
  | [] => []
  | n :: ns => n.settled e reached :: settledItems e reached ns

/-- The entries of a mapping that is read, after the reading: those taken over, and its own. -/
def settledEntries (e : Effect) :
    List (Node × Node) → List (Node × Node) × List (Node × Node)
  | [] => ([], [])
  | (k, v) :: es =>
    let (merged, own) := settledEntries e es
    if k.tag == .merge then
      match v with
      | .map _ inner =>
        let (innerMerged, innerOwn) := settledEntries e inner
        (innerMerged ++ innerOwn ++ merged, own)
      | .list _ items => (settledSources e items ++ merged, own)
      | _ => (merged, own)
    else (merged, (k.settled e true, v.settled e true) :: own)

/-- The entries taken over from a list of mappings, the last mapping's first. -/
def settledSources (e : Effect) : List Node → List (Node × Node)
  | [] => []
  | n :: ns =>
    match n with
    | .map _ inner =>
      let (merged, own) := settledEntries e inner
      settledSources e ns ++ (merged ++ own)
    | _ => settledSources e ns

/-- The entries of a mapping that is not read. -/
def unreadEntries (e : Effect) : List (Node × Node) → List (Node × Node)
  | [] => []
  | (k, v) :: es =>
    (k.settled e false, v.settled e false) :: unreadEntries e es

end

/-- The entries of a document whose outermost node is a mapping, after the reading. -/
def settledRoot : Option Node → List (Node × Node)
  | some n =>
    match n.settled (.ofRoot n) true with
    | .map _ entries => entries
    | _ => []
  | none => []

end ApiSuite.Yaml
