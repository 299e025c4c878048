import ApiSuite.Fault

/-!
# Paths

Paths are texts with slashes between names. `ApiSuite.relativeToBase` gives the path of a test
file relative to the base of all tests: a matter of cutting the base off where the path begins
with it, and of climbing up from the base otherwise.
-/

namespace ApiSuite

namespace Path

/-- The parts between the slashes of a text. -/
def splitSlashes : List Char → List (List Char)
  | [] => [[]]
  | '/' :: cs => [] :: splitSlashes cs
  | c :: cs =>
    match splitSlashes cs with
    | [] => [[c]]
    | part :: parts => (c :: part) :: parts

/-- The names in a path, a dot standing for no name at all. -/
def names (path : String) : List String :=
  ((splitSlashes path.toList).map String.ofList).filter fun n => n != "" && n != "."

/-- Whether a path begins at the root of all files. -/
def isAbsolute (path : String) : Bool := path.toList.head? == some '/'

/-- A path without empty names and without dots that stand for no name. -/
def tidy (path : String) : String :=
  let joined := "/".intercalate (names path)
  if isAbsolute path then "/" ++ joined else if joined == "" then "." else joined

/-- The names of a path, two dots taking the name before them back. -/
def normal (names : List String) : List String :=
  names.foldl (fun done n => if n == ".." then done.dropLast else done ++ [n]) []

/-- The names from the root of all files to a path, which is taken from the directory `here`
unless it is absolute. -/
def absolute (here : List String) (path : String) : List String :=
  normal ((if isAbsolute path then [] else here) ++ names path)

/-- The names left of two lists after what they begin with in common. -/
def dropCommon : List String → List String → List String × List String
  | a :: as, b :: bs => if a == b then dropCommon as bs else (a :: as, b :: bs)
  | as, bs => (as, bs)

/-- A path without the slashes at its end. -/
def withoutSlash (path : String) : String :=
  String.ofList ((path.toList.reverse.dropWhile (· == '/')).reverse)

/-- The last name in a path, empty after a slash. -/
def baseName (path : String) : String :=
  String.ofList ((path.toList.reverse.takeWhile (· != '/')).reverse)

/-- The path that leads from a directory to another place. -/
def relative (here : List String) (start path : String) : Except Fault String :=
  if path == "" then .error (.crash .emptyPath)
  else
    let (up, down) := dropCommon (absolute here start) (absolute here path)
    let names := up.map (fun _ => "..") ++ down
    .ok (if names.isEmpty then "." else "/".intercalate names)

/-- A path after a text that it begins with. -/
def after? (start path : String) : Option String :=
  let s := start.toList
  let p := path.toList
  if s.isPrefixOf p then some (String.ofList (p.drop s.length)) else none

end Path

/-- The path of a test file relative to the base of the tests, both taken from the directory
`here`. -/
def relativeToBase (here : List String) (base path : String) : Except Fault String :=
  if base == "" || base == "." then .ok ((Path.after? "./" path).getD path)
  else
    match Path.after? (Path.withoutSlash base ++ "/") path with
    | some rest => .ok rest
    | none => Path.relative here base path

end ApiSuite
