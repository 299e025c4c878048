import ApiSuite.Expression.Reading
import ApiSuite.Values.Session

/-!
# Resolvers

A **resolver** answers lookups over a fixed list of holders. Its lookups form a session, so
that a repeated one costs nothing and says nothing more in the log. A value that is missing
is never a fault: a batch of expressions is resolved as far as the **policy** goes, and the
names that are required and missing are listed.
-/

namespace ApiSuite

/-- What to do when a required value is missing. -/
inductive RequiredPolicy where
  /-- Record it and resolve the rest. -/
  | proceed
  /-- Record it and stop resolving. -/
  | stop
deriving DecidableEq, Repr

/-- A resolver: its sources, the highest precedence first, and the names that are required. -/
structure Resolver where
  options : ValuesOptions
  policy : RequiredPolicy
  sources : List Source
  required : List String

/-- The outcome of resolving a batch of expressions. -/
structure Resolution where
  values : List (String × Value)
  unresolved : List String
  missingRequired : List String
  aborted : Bool

/-- Whether no required value is missing. -/
def Resolution.isOk (r : Resolution) : Bool := r.missingRequired.isEmpty

/-- Names without repetitions, in the order they first occur. -/
def distinctNames (names : List String) : List String :=
  names.foldl (fun seen n => if seen.contains n then seen else seen ++ [n]) []

/-- The resolver over some holders. -/
def Resolver.ofHolders (holders : List ValuesHolder) (options : ValuesOptions)
    (policy : RequiredPolicy) : Except Fault Resolver := do
  let sources ← Source.ofHolders holders
  pure
    { options, policy, sources
      required := distinctNames (holders.flatMap fun h => h.required.getD []) }

namespace Resolver

theorem exists_sources_of_ofHolders {holders : List ValuesHolder} {options : ValuesOptions}
    {policy : RequiredPolicy} {r : Resolver}
    (h : Resolver.ofHolders holders options policy = .ok r) :
    ∃ sources, Source.ofHolders holders = .ok sources ∧
      r = ⟨options, policy, sources,
        distinctNames (holders.flatMap fun h => h.required.getD [])⟩ := by
  unfold Resolver.ofHolders at h
  cases hs : Source.ofHolders holders with
  | error fault =>
    rw [hs] at h
    cases h
  | ok sources =>
    rw [hs] at h
    cases h
    exact ⟨sources, rfl, rfl⟩

/-- The sources as lookups see them, with environment variables put in. -/
def currentSources (r : Resolver) : List Source :=
  r.sources.map (Source.withEnvironment r.options.env)

/-- The merged view of all values. -/
def values (r : Resolver) : List (Value × Value) := mergedEntries r.currentSources

/-- The sources as lookups see them, made at the first need. -/
def useSources (r : Resolver) : Session (List Source) :=
  Session.once Finding.sources? Finding.sources (pure r.currentSources)

/-- A lookup. -/
def getValue (r : Resolver) (expression : String) : Session (Option LocatedValue) :=
  let key := lookupKey expression
  Session.once (Finding.key? key) (Finding.key key) do
    let sources ← r.useSources
    Session.lift (findValue r.options sources key)

/-- The value of an expression without its place. -/
def resolve (r : Resolver) (expression : String) : Session (Option Value) := do
  let found ← r.getValue expression
  pure (found.map (·.value))

/-- The merged view, made at the first need. -/
def getValues (r : Resolver) : Session (List (Value × Value)) :=
  Session.once Finding.merged? Finding.merged do
    let sources ← r.useSources
    pure (mergedEntries sources)

/-- A text with the expressions filled in that have a value among some entries. -/
def fillFrom (r : Resolver) (text : String) (entries : List (Value × Value)) : Traced String :=
  Template.substitute r.options.trusted (.object entries) (addressed r.options text)

/-- A text with the expressions filled in that have a value in the merged view. -/
def substitute (r : Resolver) (text : String) : Traced String := r.fillFrom text r.values

/-- `substitute`, with the merged view made at the first need. -/
def interpolate (r : Resolver) (text : String) : Session String := do
  let entries ← r.getValues
  Session.lift (r.fillFrom text entries)

/-- The names among some that have no value. -/
def missing (r : Resolver) : List String → Session (List String)
  | [] => pure []
  | name :: names => do
    let found ← r.getValue name
    let more ← r.missing names
    pure (if found.isNone then name :: more else more)

/-- The required names that have no value. -/
def checkRequired (r : Resolver) : Session (List String) := r.missing r.required

/-- Whether the lack of an expression's value is the lack of a required one. References are
never required. -/
def violates (required : List String) (expression : String) : Bool :=
  required.contains (Expression.stripWrapper expression) && !Template.isReference expression

/-- The entry for a required value that is missing. -/
def missingEntry (name : String) : Log.Entry :=
  .mk .warning "required_value_missing" [("name", .str name)]

/-- Resolves the rest of a batch, given what has come of it so far. -/
def resolveRest (r : Resolver) (required : List String) (soFar : Resolution) :
    List String → Session Resolution
  | [] => pure soFar
  | e :: es => do
    match ← r.getValue e with
    | some v =>
      r.resolveRest required
        { soFar with values := Schema.insertField e v.value soFar.values } es
    | none =>
      let soFar := { soFar with unresolved := soFar.unresolved ++ [e] }
      if violates required e then
        let name := Expression.stripWrapper e
        let soFar := { soFar with missingRequired := soFar.missingRequired ++ [name] }
        Session.lift (Traced.tell (missingEntry name))
        if r.policy = .stop then pure { soFar with aborted := true }
        else r.resolveRest required soFar es
      else r.resolveRest required soFar es

/-- Resolves a batch of expressions. The names in `extra` are required beside those that the
holders declare. -/
def resolveAll (r : Resolver) (expressions extra : List String) : Session Resolution :=
  r.resolveRest (r.required ++ extra) ⟨[], [], [], false⟩ expressions

end Resolver

end ApiSuite
