import ApiSuite.Schema.Basic

/-!
# Requests and their results

A request suite lists the requests of one file. Running a suite gives **actual results**,
which are kept as the text of a document; **expected results** are read entry by entry, each
with the request it belongs to and the response it expects.
-/

namespace ApiSuite

/-- A request. -/
structure Request where
  name : String
  url : String
  method : String
  headers : List (String × String)
  body : Option String
deriving DecidableEq, Repr

/-- The requests of one file. -/
structure RequestSuite where
  name : String
  path : String
  requests : List Request
  source : Option String
deriving DecidableEq, Repr

/-- The status of a response. -/
structure Status where
  code : Int
  message : String
deriving DecidableEq, Repr

/-- A response. -/
structure Response where
  status : Status
  headers : List (String × String)
  body : Value

/-- An expected result. -/
structure ExpectedResult where
  path : String
  name : String
  request : List (String × Value)
  response : Response

/-- The text of a document of actual results. -/
structure ActualResults where
  path : String
  contents : String
deriving DecidableEq, Repr

/-- Whether a request says what to ask and where. -/
def Request.isComplete (r : Request) : Bool := r.method != "" && r.url != ""

/-! ### Reading -/

open Schema in
/-- A request. -/
def Request.read : Check Request :=
  record "Request" fun es =>
    Request.mk <$> defaulted "name" "" text es <*> required "url" text es <*>
      required "method" text es <*> defaulted "headers" [] (object text) es <*>
      optional "body" text es

open Schema in
/-- A request suite. -/
def RequestSuite.read : Check RequestSuite :=
  record "RequestSuite" fun es =>
    RequestSuite.mk <$> required "name" text es <*> required "path" text es <*>
      defaulted "requests" [] (list Request.read) es <*> optional "source" text es

open Schema in
/-- A status. -/
def Status.read : Check Status :=
  record "Status" fun es =>
    Status.mk <$> required "code" wholeNumber es <*> defaulted "message" "" text es

open Schema in
/-- A response. -/
def Response.read : Check Response :=
  record "Response" fun es =>
    Response.mk <$> required "status" Status.read es <*>
      defaulted "headers" [] (object text) es <*> defaulted "body" Value.null any es

open Schema in
/-- An expected result. -/
def ExpectedResult.read : Check ExpectedResult :=
  record "ExpectedResult" fun es =>
    ExpectedResult.mk <$> required "path" text es <*> required "name" text es <*>
      required "request" (object any) es <*> required "response" Response.read es

open Schema in
/-- Actual results. -/
def ActualResults.read : Check ActualResults :=
  record "ActualResults" fun es =>
    ActualResults.mk <$> required "path" text es <*> required "contents" text es

/-! ### Writing -/

open Schema in
/-- A request as a value. -/
def Request.toValue (sparse : Bool) (r : Request) : Value :=
  ofRecord sparse
    [("name", .str r.name), ("url", .str r.url), ("method", .str r.method),
      ("headers", ofTextFields r.headers), ("body", Value.ofText? r.body)]

open Schema in
/-- A request suite as a value. -/
def RequestSuite.toValue (sparse : Bool) (s : RequestSuite) : Value :=
  ofRecord sparse
    [("name", .str s.name), ("path", .str s.path),
      ("requests", .list (s.requests.map (Request.toValue sparse))),
      ("source", Value.ofText? s.source)]

open Schema in
/-- A status as a value. -/
def Status.toValue (sparse : Bool) (s : Status) : Value :=
  ofRecord sparse [("code", .int s.code), ("message", .str s.message)]

open Schema in
/-- A response as a value. -/
def Response.toValue (sparse : Bool) (r : Response) : Value :=
  ofRecord sparse
    [("status", r.status.toValue sparse), ("headers", ofTextFields r.headers), ("body", r.body)]

open Schema in
/-- An expected result as a value. -/
def ExpectedResult.toValue (sparse : Bool) (e : ExpectedResult) : Value :=
  ofRecord sparse
    [("path", .str e.path), ("name", .str e.name), ("request", .ofFields e.request),
      ("response", e.response.toValue sparse)]

open Schema in
/-- Actual results as a value. -/
def ActualResults.toValue (sparse : Bool) (a : ActualResults) : Value :=
  ofRecord sparse [("path", .str a.path), ("contents", .str a.contents)]

end ApiSuite
