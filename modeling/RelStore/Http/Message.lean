import RelStore.Json.Reader
import RelStore.Json.Writer
import RelStore.Text.Encoding

/-!
# Requests and responses

A request has a method, a path, headers, the parameters of its query and a body, which is JSON or
malformed. A response has a status, headers and octets; `Response.octets` is its form on the wire,
in which the length of the body always shows.
-/

namespace RelStore.Http

/-- The body of a request. -/
inductive Body where
  /-- There is no body. -/
  | absent
  /-- The body is a JSON value. -/
  | json (value : Json)
  /-- The body is no JSON; what is wrong with it. -/
  | malformed (message : Text)

/-- Reads a body. One that goes past a limit of JSON makes the request unreadable. -/
def Body.ofOctets (octets : Text.Octets) : Except Json.Limit Body :=
  if octets.isEmpty then .ok .absent
  else
    match Text.decodeBody octets with
    | .error fault => .ok (.malformed fault.message)
    | .ok text =>
      match Json.read text with
      | .ok value => .ok (.json value)
      | .error (.malformed problem line column position) =>
        .ok (.malformed (Json.malformedMessage problem line column position))
      | .error (.limit past) => .error past

/-- A request. -/
structure Request where
  /-- The method, in upper case. -/
  method : Text
  /-- The path. -/
  path : Text
  /-- The headers by names in lower case. -/
  headers : Mapping Text Text
  /-- The parameters of the query. -/
  query : Mapping Text (List Text)
  /-- The body. -/
  body : Body

namespace Request

/-- The JSON value of the body; null when there is none. -/
def json (request : Request) : Json :=
  match request.body with
  | .json value => value
  | .absent | .malformed _ => .null

/-- What is wrong with the body, if anything is. -/
def jsonError? (request : Request) : Option Text :=
  match request.body with
  | .malformed message => some message
  | .absent | .json _ => none

/-- The value of a field: the first one among the parameters of the query, or else the member of the
body. -/
def field? (request : Request) (name : Text) : Option Json :=
  match request.query.get? name with
  | some (first :: _) => some (.string first)
  | _ => request.json.member? name

/-- That a field has no name. -/
def emptyFieldMessage : Text := "Field cannot be empty"

/-- The value of a field, or a given one when the request has no such field. Fields have names. -/
def get (request : Request) (name : Text) (default : Json) : Except Text Json :=
  if name.isEmpty then .error emptyFieldMessage else .ok ((request.field? name).getD default)

end Request

/-- A response. -/
structure Response where
  /-- The status. -/
  status : Int
  /-- The headers, by names as they are given. -/
  headers : Mapping Text Text
  /-- The octets of the body. -/
  body : Text.Octets
  deriving DecidableEq

namespace Response

/-- A response without a body. -/
def ofStatus (status : Int) (headers : Mapping Text Text) : Response := ⟨status, headers, []⟩

/-- A response with a JSON value as its body. -/
def withJson (response : Response) (payload : Json) : Response where
  status := response.status
  headers := response.headers.put "content-type" "application/json"
  body := Text.encode payload.text

/-- A response that says why a request has failed. -/
def ofError (status : Int) (message : Text) : Response :=
  (ofStatus status []).withJson
    (.object [("success", .bool false), ("message", .string message)])

/-- The words of a status. -/
def statusText (status : Int) : Text :=
  if status = 200 then "OK"
  else if status = 400 then "Bad Request"
  else if status = 404 then "Not Found"
  else if status = 405 then "Method Not Allowed"
  else if status = 413 then "Payload Too Large"
  else if status = 500 then "Internal Server Error"
  else "Unknown"

/-- The headers as they are sent: the type of the body if none is given, its length, and two that
the server always sets. -/
def sentHeaders (response : Response) : Mapping Text Text :=
  let typed :=
    if response.headers.has "content-type" then response.headers
    else response.headers.put "content-type" "text/plain"
  ((typed.put "content-length" (.ofNat response.body.length)).put "connection"
    "keep-alive").put "server" "MiniRel/1.0"

/-- The line of a header. -/
def headerLine (name value : Text) : Text := name ++ ": " ++ value ++ "\r\n"

/-- The status line and the header lines. -/
def head (response : Response) : Text :=
  "HTTP/1.1 " ++ Text.ofInt response.status ++ " " ++ statusText response.status ++ "\r\n" ++
    response.sentHeaders.flatMap fun (name, value) => headerLine name value

/-- A response on the wire. -/
def octets (response : Response) : Text.Octets :=
  Text.encode response.head ++ Text.encode "\r\n" ++ response.body

end Response

end RelStore.Http
