import ApiSuite.Template.Resolution
import ApiSuite.Values.Holder
import ApiSuite.Values.Merge

/-!
# Looking values up

An expression is looked up in a list of sources from the highest precedence down, and has the
value of the first source in which it resolves as a whole. The merged view puts all sources
into one object, later ones over earlier ones. Both are to see the sources with environment
variables put in.
-/

namespace ApiSuite

/-- The entries of a holder, with the place they came from. -/
structure Source where
  entries : List (Value × Value)
  location : Option ValuesLocation

/-- The source of a holder. -/
def Source.ofHolder (h : ValuesHolder) : Except Fault Source := do
  let entries ← h.entries
  pure ⟨entries, h.location⟩

/-- The sources of holders, the highest precedence first. -/
def Source.ofHolders (holders : List ValuesHolder) : Except Fault (List Source) :=
  holders.reverse.mapM Source.ofHolder

/-- A source with environment variables put in. -/
def Source.withEnvironment (env : Environment) (s : Source) : Source :=
  { s with entries := env.substituteEntries s.entries }

/-- The key that an expression is looked up by: a text without embedded expressions is taken
as the name of one. -/
def lookupKey (expression : String) : String :=
  if Template.isPlain expression then Template.toExpression expression else expression

/-- An expression with its references addressed to their holder, where there is one. -/
def addressed (options : ValuesOptions) (expression : String) : String :=
  match options.holderName? with
  | some name => Template.replaceReferences expression name
  | none => expression

/-- The value of an expression in the first source that has one. -/
def firstValue (trusted : Bool) (expression : String) :
    List Source → Traced (Option LocatedValue)
  | [] => pure none
  | s :: rest => do
    match ← Template.resolve trusted (.object s.entries) expression with
    | some v => pure (some ⟨v, s.location⟩)
    | none => firstValue trusted expression rest

/-- The value that a key has in some sources. -/
def findValue (options : ValuesOptions) (sources : List Source) (key : String) :
    Traced (Option LocatedValue) :=
  firstValue options.trusted
    (if Template.isReference key then addressed options key else key) sources

/-- All sources in one object. -/
def mergedEntries (sources : List Source) : List (Value × Value) :=
  sources.reverse.foldl (fun merged s => Value.merge merged s.entries) []

end ApiSuite
