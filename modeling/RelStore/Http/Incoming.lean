import RelStore.Http.Message
import RelStore.Http.Target
import RelStore.Text.Blank
import RelStore.Text.Case
import RelStore.Text.Splitting

/-!
# Requests on the wire

`takeRequest` reads one request from the octets that a client has sent: a request line, header lines
up to an empty one, and as many octets of a body as the headers tell. A client that sends no more
than a part of a request, a line that is too long, or a body that cannot be read gets no answer.
-/

namespace RelStore.Http

/-- The greatest number of octets of a line before its end. -/
def lineLimit : Nat := 64 * 1024

/-- The greatest number of octets of a body. -/
def bodyLimit : Nat := 10 * 1024 * 1024

/-- The octet that ends a line. -/
def newline : UInt8 := 10

/-- The line at the start of what a client has sent, with its end, and what follows. When nothing
more will come (`ended`), the rest is a line even without an end. -/
def takeLine? (ended : Bool) (input : Text.Octets) : Option (Text.Octets × Text.Octets) :=
  let line := input.takeWhile (· != newline)
  if lineLimit < line.length then none
  else
    match input.dropWhile (· != newline) with
    | _ :: rest => some (line ++ [newline], rest)
    | [] => if ended then some (line, []) else none

/-- The text of a line without the blanks at its ends. -/
def lineText (line : Text.Octets) : Text := (Text.Utf8.decode line).strip

/-- The method, the target and the version of a request line. -/
def requestParts? (line : Text) : Option (Text × Text × Text) := do
  let (method, rest) ← line.splitFirst? ' '
  let (target, version) ← rest.splitFirst? ' '
  return (method, target, version)

/-- Headers with the one of a line, if it is one. Names are in lower case. -/
def addHeader (headers : Mapping Text Text) (line : Text) : Mapping Text Text :=
  match line.splitFirst? ':' with
  | some (name, value) =>
    headers.put (Text.lower name.strip) value.strip
  | none => headers

/-- Whether a line ends the headers. -/
def isEmptyLine (line : Text.Octets) : Bool := line == [13, 10] || line == [10] || line == []

/-- The headers and what follows them. Every line but the last takes at least one octet, so one step
more than there are octets suffices. -/
def takeHeaders? (ended : Bool) :
    Nat → Mapping Text Text → Text.Octets → Option (Mapping Text Text × Text.Octets)
  | 0, _, _ => none
  | steps + 1, headers, input =>
    match takeLine? ended input with
    | none => none
    | some (line, rest) =>
      if isEmptyLine line then some (headers, rest)
      else takeHeaders? ended steps (addHeader headers (lineText line)) rest

/-- What a client has sent. -/
inductive Incoming where
  /-- A request, and what follows it. -/
  | request (request : Request) (rest : Text.Octets)
  /-- A request that is refused with a status and a message, after which the connection ends. -/
  | refused (status : Int) (message : Text)
  /-- Nothing that gets an answer. -/
  | nothing

/-- How many octets the body of a request has by its headers. A negative number counts as zero. -/
def bodyLength (headers : Mapping Text Text) : Except (Int × Text) Nat :=
  match headers.get? "content-length" with
  | none => .ok 0
  | some text =>
    match readInteger? text with
    | none => .error (400, "Invalid Content-Length header")
    | some n =>
      if (bodyLimit : Int) < n then .error (413, "Request body too large") else .ok n.toNat

/-- Reads the headers and the body of a request after its request line. -/
def takeAfterLine (ended : Bool) (method : Text) (target : Target) (input : Text.Octets) :
    Incoming :=
  match takeHeaders? ended (input.length + 1) [] input with
  | none => .nothing
  | some (headers, rest) =>
    match bodyLength headers with
    | .error (status, message) => .refused status message
    | .ok length =>
      if rest.length < length then .nothing
      else
        match Body.ofOctets (rest.take length) with
        | .error _ => .nothing
        | .ok body =>
          let method := Text.upper method
          .request ⟨method, target.path, headers, target.query, body⟩ (rest.drop length)

/-- Reads a request. -/
def takeRequest (ended : Bool) (input : Text.Octets) : Incoming :=
  match takeLine? ended input with
  | none => .nothing
  | some ([], _) => .nothing
  | some (line, rest) =>
    match requestParts? (lineText line) with
    | none => .refused 400 "Malformed request line"
    | some (method, target, _) =>
      match Target.parse? target with
      | none => .nothing
      | some target => takeAfterLine ended method target rest

end RelStore.Http
