import ApiSuite.Json.Reader
import ApiSuite.Yaml.Assembly
import ApiSuite.Yaml.Lines

/-!
# Documents

A document is JSON or YAML. Which one it is, its name says, or its first character. What is
wrong with a document is reported with its name and the line.
-/

namespace ApiSuite.Document

/-- Whether a text begins with another. -/
def beginsWith (start s : String) : Bool := start.toList.isPrefixOf s.toList

/-- Whether a text ends with another. -/
def endsWith (ending s : String) : Bool := ending.toList.isSuffixOf s.toList

/-- Whether a document is JSON: by the ending of its name, or else by its first character. -/
def isJson (content : String) (name : Option String) : Bool :=
  let sniffed := beginsWith "\x7b" content
  match name with
  | none => sniffed
  | some name =>
    if endsWith ".json" name then true
    else if endsWith ".yaml" name || endsWith ".yml" name then false
    else sniffed

/-- A name, unless it is empty. -/
def named? : Option String → Option String
  | some "" => none
  | name => name

/-- A YAML document that cannot be read, for what is wrong at a line or with a character. -/
def yamlFault (name : Option String) (line : Option Int) : Fault :=
  let place := match named? name with
    | some n => " in " ++ n
    | none => ""
  .document
    { kind := .any, message := "YAML syntax error" ++ place ++ ": <yaml>", path := name, line
      cause := some .yaml }

/-- The fault that a failure to read a YAML document is. -/
def faultOf (name : Option String) : Yaml.Failure → Fault
  | .malformed m => yamlFault name (some (m.line + 1))
  | .forbidden => yamlFault name none
  | .crash c => .crash c

/-- The root of a YAML document and its value. -/
def readYaml (contents : String) : Except Yaml.Failure (Option Yaml.Node × Value) := do
  let root ← Yaml.Node.ofString contents
  let value ← Yaml.Node.read root
  pure (root, value)

/-- The value of a YAML document. -/
def loadYaml (name : Option String) (contents : String) : Except Fault Value :=
  match readYaml contents with
  | .ok (_, value) => .ok value
  | .error e => .error (faultOf name e)

/-- The value of a YAML document with the ranges of the keys of its outermost mapping. A
character that no document may hold is a crash here. -/
def loadYamlWithLines (name : Option String) (contents : String) :
    Except Fault (Value × List (String × Yaml.LineRange)) :=
  match readYaml contents with
  | .ok (root, value) =>
    if value.isObject then .ok (value, Yaml.lineRanges contents (Yaml.keyLines root))
    else .ok (value, [])
  | .error .forbidden => .error (.crash .forbiddenCharacter)
  | .error e => .error (faultOf name e)

/-- The value of a JSON document. -/
def loadJson (name : Option String) (contents : String) : Except Fault Value :=
  match Json.read contents with
  | .ok value => .ok value
  | .error (.hugeNumeral n) => .error (.crash (.hugeNumeral n))
  | .error (.malformed e) =>
    let place := match named? name with
      | some n => " " ++ n
      | none => ""
    .error <| .document
      { kind := .any, message := "JSON error parsing" ++ place ++ ": " ++ e.reason.message
        path := name, line := some e.line, cause := some .json }

/-- The value of a document. -/
def loadContent (contents : String) (name : Option String) : Except Fault Value :=
  if isJson contents name then loadJson name contents else loadYaml name contents

end ApiSuite.Document
