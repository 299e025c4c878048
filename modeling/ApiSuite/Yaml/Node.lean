import ApiSuite.Yaml.Cursor
import ApiSuite.Yaml.Tag

/-!
# Nodes

The structure of a document is a tree of **nodes**: scalars, lists and mappings, each with its
tag and the place where it begins. A node may be named by an anchor, and an alias stands for
the node of that name.

Within the node that it names, an alias would make the tree endless. The node is said once more
there, and within that the alias is left as a cycle (`ApiSuite.Yaml.Node.unrolled`). A value
with an end needs no more, since it is not part of itself.
-/

namespace ApiSuite.Yaml

/-- What a collection is begun with. Of two collections that begin at one place the inner one
has the greater depth, so that no two collections of a document have the same opening. -/
structure Opening where
  anchor : Option String
  tag : Tag
  mark : Mark
  depth : Nat
deriving DecidableEq, Repr

/-- A node. -/
inductive Node where
  | scalar (tag : Tag) (text : String) (mark : Mark)
  | list (o : Opening) (items : List Node)
  | map (o : Opening) (entries : List (Node × Node))
  /-- An alias within the list or mapping it names. -/
  | cycle (isMap : Bool) (o : Opening)

namespace Node

/-- The place where a node begins. -/
def mark : Node → Mark
  | scalar _ _ m => m
  | list o _ | map o _ | cycle _ o => o.mark

/-- The tag of a node. -/
def tag : Node → Tag
  | scalar t _ _ => t
  | list o _ | map o _ | cycle _ o => o.tag

/-! ### Cycles -/

mutual

/-- The node with other nodes for its cycles. -/
def replaceCycles (stands : Bool → Opening → Node) : Node → Node
  | scalar t text m => scalar t text m
  | list o items => list o (replaceInItems stands items)
  | map o entries => map o (replaceInEntries stands entries)
  | cycle isMap o => stands isMap o

/-- Items with other nodes for their cycles. -/
def replaceInItems (stands : Bool → Opening → Node) : List Node → List Node
  | [] => []
  | n :: ns => n.replaceCycles stands :: replaceInItems stands ns

/-- Entries with other nodes for their cycles. -/
def replaceInEntries (stands : Bool → Opening → Node) : List (Node × Node) → List (Node × Node)
  | [] => []
  | (k, v) :: es => (k.replaceCycles stands, v.replaceCycles stands) :: replaceInEntries stands es

end

/-- The node in which each cycle is the node it names, in which the cycles of other names are
unrolled likewise. The depth at which that ends is at most the number of names. -/
def unrolled (named : List (String × Node)) : Nat → Node → Node
  | 0, n => n
  | depth + 1, n =>
    n.replaceCycles fun isMap o =>
      match o.anchor with
      | none => cycle isMap o
      | some name =>
        match named.lookup name with
        | none => cycle isMap o
        | some target => target.unrolled (named.filter fun e => e.1 != name) depth

end Node

end ApiSuite.Yaml
