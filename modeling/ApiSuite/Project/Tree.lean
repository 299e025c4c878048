import ApiSuite.Project.Glob
import ApiSuite.Text.Utf8

/-!
# Directory trees

The files of a project: a tree of directories, in which files hold octets. A path is followed
name by name from the root of the project; two dots lead back to the directory before. Nothing
is found outside of the project.
-/

namespace ApiSuite

/-- A file or a directory. -/
inductive Entry where
  | file (octets : List UInt8)
  | directory (entries : List (String × Entry))

/-- The files of a project, by the entries of its root. -/
structure Tree where
  entries : List (String × Entry)

/-- Which files to list: of subdirectories as well or not, and by which patterns, any file if
there are none. -/
structure FileQuery where
  recursive : Bool
  patterns : List String
deriving DecidableEq, Repr

namespace Entry

/-- What some names lead to from an entry, the directories passed being `above`. -/
def follow (above : List Entry) (e : Entry) : List String → Option Entry
  | [] => some e
  | n :: ns =>
    match e with
    | .file _ => none
    | .directory entries =>
      if n == ".." then
        match above with
        | [] => none
        | parent :: above => follow above parent ns
      else
        match entries.lookup n with
        | some child => follow (.directory entries :: above) child ns
        | none => none

/-- Whether an entry is a directory. -/
def isDirectory : Entry → Bool
  | .directory _ => true
  | .file _ => false

end Entry

namespace Tree

/-- The project without files. -/
def empty : Tree := ⟨[]⟩

/-- The root of a project. -/
def root (t : Tree) : Entry := .directory t.entries

/-- What a path leads to. -/
def find? (t : Tree) (path : String) : Option Entry :=
  if Path.isAbsolute path then none else t.root.follow [] (Path.names path)

/-! ### Change -/

mutual

/-- The entries with one put under names, its directories made where they are missing. -/
def put (leaf : Option Entry) : List String → List (String × Entry) → List (String × Entry)
  | [], es => es
  | [n], es =>
    match leaf with
    | some e => (n, e) :: es.filter fun x => x.1 != n
    | none => es.filter fun x => x.1 != n
  | n :: m :: ns, es => (n, putIn leaf (m :: ns) (es.lookup n)) :: es.filter fun x => x.1 != n

/-- The directory with an entry put under names; a file in its place gives way. -/
def putIn (leaf : Option Entry) (ns : List String) : Option Entry → Entry
  | some (.directory es) => .directory (put leaf ns es)
  | _ => .directory (put leaf ns [])

end

/-- The project with a file at a path. -/
def insert (path : String) (octets : List UInt8) (t : Tree) : Tree :=
  ⟨put (some (.file octets)) (Path.names path) t.entries⟩

/-- The project without what was at a path. -/
def erase (path : String) (t : Tree) : Tree := ⟨put none (Path.names path) t.entries⟩

/-- The project of some files by their paths. -/
def ofFiles (files : List (String × List UInt8)) : Tree :=
  files.foldl (fun t (path, octets) => t.insert path octets) empty

/-! ### Listing and reading -/

/-- What was found under names, in the order of the names. -/
def inOrder (found : List (String × List String)) : List String :=
  (found.mergeSort fun a b => decide (a.1 ≤ b.1)).flatMap (·.2)

/-- The path of a name in a directory. -/
def pathIn (directory name : String) : String := Path.withoutSlash directory ++ "/" ++ name

mutual

/-- The files to be listed at a path. -/
def listAt (q : FileQuery) (path : String) : Entry → List String
  | .file _ => if q.patterns.isEmpty || Glob.matchesAny q.patterns path then [path] else []
  | .directory entries =>
    if q.recursive && !Path.isAbsolute path then inOrder (listEach q path entries) else []

/-- The files to be listed for each entry of a directory. -/
def listEach (q : FileQuery) (directory : String) :
    List (String × Entry) → List (String × List String)
  | [] => []
  | (name, e) :: es => (name, listAt q (pathIn directory name) e) :: listEach q directory es

end

/-- The paths of the files under a directory, none if there is no such directory. -/
def listFiles (t : Tree) (q : FileQuery) (directory : String) : List String :=
  match t.find? directory with
  | some (.directory entries) => inOrder (listEach q directory entries)
  | _ => []

/-- The text of a file, none if there is no such file. -/
def readText? (t : Tree) (path : String) : Except Fault (Option String) :=
  match t.find? path with
  | some (.file octets) => (Text.ofOctets octets).map some
  | _ => .ok none

/-- The files under a directory with their texts. -/
def readFiles (t : Tree) (q : FileQuery) (directory : String) :
    Except Fault (List (String × String)) := do
  let found ← (t.listFiles q directory).mapM fun path => do
    pure ((← t.readText? path).map fun text => (path, text))
  pure (found.filterMap id)

end Tree

end ApiSuite
