import RelStore.Http.Host
import RelStore.Mapping
import RelStore.Text.Utf8

/-!
# Request targets

The target of a request gives the path that chooses the route and the parameters of the query. A
scheme and an authority in front, a fragment, and parameters of the last part of the path are cut
off. The path is taken as it is written; in the query, plus signs are blanks and percent signs begin
octets.
-/

namespace RelStore.Http

/-- What a request asks for. -/
structure Target where
  /-- The path. -/
  path : Text
  /-- The parameters of the query, each with its values in order. -/
  query : Mapping Text (List Text)
  deriving DecidableEq

namespace Target

/-- The schemes whose paths may have parameters; the empty one is a target without scheme. -/
def schemesWithParameters : List Text :=
  ["", "ftp", "hdl", "prospero", "http", "imap", "https", "shttp", "rtsp", "rtspu", "sip",
   "sips", "mms", "sftp", "tel"]

/-- Whether a character can be part of a scheme. -/
def isSchemeChar (c : CodePoint) : Bool := c.isAlphanum || c == '+' || c == '-' || c == '.'

/-- The scheme at the start of a target, in lower case, and what follows it. -/
def takeScheme (cs : Text) : Text × Text :=
  match cs.splitFirst? ':' with
  | some (scheme, rest) =>
    if scheme.head?.any CodePoint.isAlpha && scheme.all isSchemeChar then
      (scheme.map CodePoint.toLower, rest)
    else ("", cs)
  | none => ("", cs)

/-- Whether a character ends an authority. -/
def endsAuthority (c : CodePoint) : Bool := c == '/' || c == '?' || c == '#'

/-- The authority at the start of a target and what follows it. -/
def takeAuthority (cs : Text) : Text × Text :=
  match cs with
  | .char '/' :: .char '/' :: rest =>
    (rest.takeWhile (!endsAuthority ·), rest.dropWhile (!endsAuthority ·))
  | _ => ([], cs)

/-- A path without the parameters of its last part. -/
def dropParameters (path : Text) : Text :=
  let last := (Text.upTo path.reverse '/').reverse
  path.take (path.length - last.length) ++ Text.upTo last ';'

/-- The octets of a text in which a percent sign and two hexadecimal digits stand for one octet. -/
def unescaped : Text → Text.Octets
  | .char '%' :: a :: b :: rest =>
    if a.isHexDigit && b.isHexDigit then
      UInt8.ofNat (a.hexValue * 16 + b.hexValue) :: unescaped rest
    else Text.encode "%" ++ unescaped (a :: b :: rest)
  | c :: rest => Text.encodePoint c ++ unescaped rest
  | [] => []

/-- A text cut into runs of ASCII characters and single other characters. -/
def asciiRuns (cs : Text) : List Text :=
  cs.foldr (fun c runs =>
    match runs with
    | (d :: run) :: rest =>
      if c.code < 0x80 ∧ d.code < 0x80 then (c :: d :: run) :: rest
      else [c] :: (d :: run) :: rest
    | _ => [c] :: runs) []

/-- A name or a value of a query as it is meant. Octets that are no text are replaced, in each run
of ASCII characters by itself. -/
def decoded (cs : Text) : Text :=
  let blanks : Text := cs.map fun c : CodePoint => if c = '+' then ' ' else c
  (asciiRuns blanks).flatMap fun run => Text.Utf8.decode (unescaped run)

/-- The parameters of a query. Those without a value are left out. -/
def parameters (query : Text) : Mapping Text (List Text) :=
  (query.splitAll '&').foldl (fun found parameter =>
    match parameter.splitFirst? '=' with
    | some (name, v :: value) =>
      let name := decoded name
      found.put name ((found.get? name).getD [] ++ [decoded (v :: value)])
    | _ => found) []

/-- Whether a character may stand anywhere in a target without counting. -/
def isSkipped (c : CodePoint) : Bool := c == '\t' || c == '\r' || c == '\n'

/-- The target of a text, unless its authority is none. Control characters and blanks in front and
line breaks and tabs anywhere do not count. -/
def parse? (text : Text) : Option Target :=
  let inner := (text.dropWhile (·.code ≤ 0x20)).filter (!isSkipped ·)
  let (scheme, rest) := takeScheme inner
  let (authority, rest) := takeAuthority rest
  if Host.isValid authority then
    let rest := rest.upTo '#'
    let path := rest.upTo '?'
    let query := (rest.onward '?').drop 1
    let path := if schemesWithParameters.contains scheme then dropParameters path else path
    some ⟨path, parameters query⟩
  else none

end Target

end RelStore.Http
