import ApiSuite.Request.Document
import ApiSuite.Traced
import ApiSuite.Values.Holder

/-!
# Results of tests

Expected results are read from documents entry by entry: those that have a request and a
response count, and one that is malformed is passed over. The actual results of an earlier run
become values, which references are looked up in: each request that was made, with the
response to it, under the name of the request or the identifier of its step.
-/

namespace ApiSuite

/-- Whether an entry has something under a name. -/
def has (name : String) (es : List (Value × Value)) : Bool :=
  (Value.lookup name es).any fun v => !v.isVoid

/-- The expected result of an entry, none if it is malformed, which is noted in the log. -/
def ExpectedResult.ofEntry (path : String) (key : Value) (es : List (Value × Value)) :
    Traced (Option ExpectedResult) := do
  let name ← Traced.ofExcept (keyText key)
  let fields := overFields [("path", .str path), ("name", .str name)] es
  match ExpectedResult.read (.object fields) with
  | .valid e => pure (some e)
  | .invalid _ => do
    Traced.tell (.mk .warning "expected_result_invalid" [("path", .str path), ("name", key)])
    pure none
  | .crashed c => Traced.fail (.crash c)

/-- The expected results of some entries. -/
def ExpectedResult.ofEntries (path : String) :
    List (Value × Value) → Traced (List ExpectedResult)
  | [] => pure []
  | (key, .object es) :: rest =>
    if has "request" es && has "response" es then do
      let first ← ExpectedResult.ofEntry path key es
      let more ← ExpectedResult.ofEntries path rest
      pure (first.toList ++ more)
    else ExpectedResult.ofEntries path rest
  | _ :: rest => ExpectedResult.ofEntries path rest

/-- The expected results of a document. -/
def ExpectedResult.ofDocument (path contents : String) : Traced (List ExpectedResult) := do
  match ← Traced.ofExcept (Document.loadYaml (some path) contents) with
  | .object es => ExpectedResult.ofEntries path es
  | _ => pure []

/-! ### Actual results -/

/-- What a run was made of. -/
inductive RunKind where
  | request
  | flow
deriving DecidableEq, Repr

/-- A request or response with its body read as JSON, if it is an object as JSON. -/
def decodeBody (path : String) (es : List (Value × Value)) : Traced (List (Value × Value)) :=
  match Value.lookup "body" es with
  | some (.str body) =>
    if Document.beginsWith "\x7b" body then
      match Json.read body with
      | .ok v => pure (Value.insert (.str "body") v es)
      | .error (.hugeNumeral n) => Traced.fail (.crash (.hugeNumeral n))
      | .error (.malformed e) => do
        Traced.tell
          (.mk .debug "result_body_not_json" [("path", .str path), ("error", .str e.describe)])
        pure es
    else pure es
  | _ => pure es

/-- The request of a result, if it has one. -/
def requestOf? : Value → Option (List (Value × Value))
  | .object es =>
    match Value.lookup "request" es with
    | some (.object request) => some request
    | _ => none
  | _ => none

/-- The value that a result becomes, given its request. -/
def resultValue (path : String) (request : List (Value × Value)) (result : Value) :
    Traced Value := do
  let request ← decodeBody path request
  let response ←
    match result.get? "response" with
    | some (.object es) => do
      let es ← decodeBody path es
      pure (Value.object es)
    | some v => pure v
    | none => pure .null
  pure (.ofFields [("request", .object request), ("response", response)])

/-- The values of the results that the requests of a suite had, after some others. -/
def requestValues (path : String) (found : List (String × Value)) :
    List (Value × Value) → Traced (List (String × Value))
  | [] => pure found
  | (key, result) :: rest =>
    match requestOf? result with
    | none => requestValues path found rest
    | some request => do
      let name ← Traced.ofExcept (keyText key)
      let v ← resultValue path request result
      requestValues path (Schema.insertField name v found) rest

/-- The text of the identifier of a result. -/
def identifier (missing : Value) (result : Value) : Except Fault String :=
  keyText ((result.get? "id").getD missing)

/-- The values of the results that the steps of a subflow had, after some others. -/
def subflowValues (path subflow : String) (found : List (String × Value)) :
    List Value → Traced (List (String × Value))
  | [] => pure found
  | result :: rest =>
    match requestOf? result with
    | none => subflowValues path subflow found rest
    | some request => do
      let step ← Traced.ofExcept (identifier .null result)
      let v ← resultValue path request result
      subflowValues path subflow (Schema.insertField (subflow ++ "." ++ step) v found) rest

/-- The values of the results that the steps of a flow had, after some others: those of
subflows are known by an identifier with `f` at its beginning, steps by one with `s`. -/
def flowValues (path : String) (found : List (String × Value)) :
    List Value → Traced (List (String × Value))
  | [] => pure found
  | result :: rest =>
    match result with
    | .object es => do
      let id ← Traced.ofExcept (identifier (.str "") result)
      let found ←
        if Document.beginsWith "f" id then subflowValues path id found (es.map (·.2))
        else if Document.beginsWith "s" id then
          match requestOf? result with
          | some request => do
            let v ← resultValue path request result
            pure (Schema.insertField id v found)
          | none => pure found
        else pure found
      flowValues path found rest
    | _ => flowValues path found rest

/-- The document of actual results, or null if it cannot be read, which is noted in the log. -/
def ActualResults.data (a : ActualResults) : Traced Value :=
  (Traced.ofExcept (Document.loadYaml (some a.path) a.contents)).handleKnown fun e => do
    Traced.tell
      (.mk .error "actual_results_invalid" [("path", .str a.path), ("error", .str e.message)])
    pure .null

/-- The holder of the values that actual results become. -/
def ActualResults.holder (kind : RunKind) (a : ActualResults) : Traced ValuesHolder := do
  let fields ←
    match ← a.data with
    | .object es =>
      match kind with
      | .request => requestValues a.path [] es
      | .flow => flowValues a.path [] (es.map (·.2))
    | _ => pure []
  pure ⟨.object fields, some ⟨a.path, none⟩, none⟩

end ApiSuite
