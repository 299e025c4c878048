import ApiSuite.Text.Quoted
import ApiSuite.Yaml.Node

/-!
# Nodes as text

Where a collection is asked for its text, its content is **shown**: the nodes it holds, each
with its kind, its tag and its own content. A collection within itself is not shown again.
-/

namespace ApiSuite.Yaml

/-- The text of a node, given its kind, its tag and the text of its content. -/
def shownNode (kind : String) (tag : Tag) (content : String) : String :=
  kind ++ "(tag=" ++ Text.quoted tag.fullName ++ ", value=" ++ content ++ ")"

/-- The texts of some parts in brackets. -/
def bracketed (parts : List String) : String := "[" ++ ", ".intercalate parts ++ "]"

/-- The content of a collection that is being shown already. -/
def shownAgain : String := "[...]"

/-- The kind of a list. -/
def listKind : String := "SequenceNode"

/-- The kind of a mapping. -/
def mapKind : String := "MappingNode"

mutual

/-- The text of a node within some collections. -/
def Node.shown (around : List Opening) : Node → String
  | .scalar tag text _ => shownNode "ScalarNode" tag (Text.quoted text)
  | .list o items =>
    shownNode listKind o.tag
      (if around.contains o then shownAgain else bracketed (shownItems (o :: around) items))
  | .map o entries =>
    shownNode mapKind o.tag
      (if around.contains o then shownAgain else bracketed (shownEntries (o :: around) entries))
  | .cycle isMap o => shownNode (if isMap then mapKind else listKind) o.tag shownAgain

/-- The texts of items within some collections. -/
def shownItems (around : List Opening) : List Node → List String
  | [] => []
  | n :: ns => n.shown around :: shownItems around ns

/-- The texts of entries within some collections. -/
def shownEntries (around : List Opening) : List (Node × Node) → List String
  | [] => []
  | (k, v) :: es =>
    ("(" ++ k.shown around ++ ", " ++ v.shown around ++ ")") :: shownEntries around es

end

/-- The text of the content of a node: of a scalar its own, of a collection what it holds. -/
def Node.content : Node → String
  | .scalar _ text _ => text
  | .list o items => bracketed (shownItems [o] items)
  | .map o entries => bracketed (shownEntries [o] entries)
  | .cycle _ _ => shownAgain

end ApiSuite.Yaml
