import RelStore.Http.Incoming

/-!
# Routes and connections

A route answers the requests of one method and path; it may read and change a state, which for the
service is the database. `serve` answers the requests of a connection one after the other, each on
the state that the one before has left.
-/

namespace RelStore.Http

/-- What a route answers. -/
inductive Reply where
  /-- A response. -/
  | response (response : Response)
  /-- A value, of which lists and objects are sent as JSON. -/
  | json (value : Json)

/-- A route: what to answer to a method and a path. The answer may fail with a message. -/
structure Route (σ : Type) where
  /-- The method, in upper case. -/
  method : Text
  /-- The path. -/
  path : Text
  /-- The answer to a request in a state, and the state after it. -/
  answer : Request → σ → Except Text Reply × σ

variable {σ : Type}

/-- Adds a route, in the place of an earlier one of its method and path. -/
def addRoute (routes : List (Route σ)) (route : Route σ) : List (Route σ) :=
  routes.filter (fun old => !(old.method == route.method && old.path == route.path)) ++ [route]

/-- The response that a reply is sent as. -/
def Reply.toResponse : Reply → Response
  | .response sent => sent
  | .json value =>
    match value with
    | .array _ | .object _ => (Response.ofStatus 200 []).withJson value
    | _ => .ofError 500 "Handler returned an unsupported response type"

/-- The response to a request, and the state after it. -/
def handle (routes : List (Route σ)) (request : Request) (state : σ) : Response × σ :=
  match routes.find? fun route => route.method == request.method && route.path == request.path with
  | some route =>
    match route.answer request state with
    | (.ok reply, state) => (reply.toResponse, state)
    | (.error message, state) => (.ofError 500 ("Internal error: " ++ message), state)
  | none =>
    if routes.any fun route => route.path == request.path then
      (.ofError 405 ("Method " ++ request.method ++ " not allowed on " ++ request.path), state)
    else (.ofError 404 ("Route not found: " ++ request.path), state)

/-- Whether a client asks to end the connection after a request. -/
def asksToClose (request : Request) : Bool :=
  match request.headers.get? "connection" with
  | some value => Text.lower value == "close"
  | none => false

/-- What the server writes to a connection on which a client has sent some octets, and the state
after it. Every request takes at least one octet, so as many steps as there are octets suffice. -/
def serveWithin (routes : List (Route σ)) (ended : Bool) :
    Nat → σ → Text.Octets → Text.Octets × σ
  | 0, state, _ => ([], state)
  | steps + 1, state, input =>
    match takeRequest ended input with
    | .nothing => ([], state)
    | .refused status message => ((Response.ofError status message).octets, state)
    | .request request rest =>
      let (response, state) := handle routes request state
      if asksToClose request then (response.octets, state)
      else
        let (written, state) := serveWithin routes ended steps state rest
        (response.octets ++ written, state)

/-- Serves a connection. The client has sent the input and then either closes its side (`ended`) or
stays silent until the server gives up. -/
def serve (routes : List (Route σ)) (ended : Bool) (state : σ) (input : Text.Octets) :
    Text.Octets × σ :=
  serveWithin routes ended input.length state input

end RelStore.Http
