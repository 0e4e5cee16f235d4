import RelStore.Proofs.Http.Headers
import RelStore.Proofs.Outcome

/-!
# Where a response ends

A client reads a response from what the server has written (`Received.take?`): lines up to the first
empty one, of which the first has the status and the others a header each, and as many octets of a
body as the header `content-length` tells. Headers that fit on lines (`PlainHeaders`) are what it
reads, whatever the body contains (`Received.take?_octets`), so that it finds each response of a
sequence where the one before has ended (`receive?_octets`).

Of the headers that it reads, those that the server does not set are the ones that were given, with
the type of plain text after them where no type was (`responses_recovered`). Whether that type was
given it cannot tell (`untyped_not_recovered`).
-/

namespace RelStore.Http

open Text (Octets encode)

/-! ## A client -/

/-- What a client reads of a response. -/
structure Received where
  /-- The status. -/
  status : Int
  /-- The headers, in order. -/
  headers : List (Text × Text)
  /-- The body. -/
  body : Octets
  deriving DecidableEq

namespace Received

/-- The line that octets begin with, up to the first line end, and what follows it. -/
def takeLine? : Octets → Option (Octets × Octets)
  | 13 :: 10 :: rest => some ([], rest)
  | octet :: rest => (takeLine? rest).map fun (line, rest) => (octet :: line, rest)
  | [] => none

/-- The lines up to the first empty one, and what follows it. Every line takes octets, so as many
steps as there are octets suffice. -/
def takeLines? : Nat → Octets → Option (List Octets × Octets)
  | 0, _ => none
  | steps + 1, input =>
    match takeLine? input with
    | none => none
    | some ([], rest) => some ([], rest)
    | some (line, rest) => (takeLines? steps rest).map fun (lines, rest) => (line :: lines, rest)

/-- The text of a line. -/
def lineText? (line : Octets) : Option Text := (Text.decodeUtf8 [] 0 line.length line).toOption

/-- The number that decimal digits stand for. -/
def number? (text : Text) : Option Nat :=
  if text ≠ [] ∧ ∀ c ∈ text, c.isDigit = true then some (ofDigits (text.map CodePoint.digitValue))
  else none

/-- The status of a status line: the number between the first two blanks. -/
def status? (line : Text) : Option Int := do
  let (_, rest) ← line.splitFirst? ' '
  let (code, _) ← rest.splitFirst? ' '
  let (negative, digits) := takeSign code
  return signed negative (← number? digits)

/-- The name and the value of a header line, which a colon and a blank separate. -/
def header? (line : Text) : Option (Text × Text) := do
  let (name, padded) ← line.splitFirst? ':'
  match padded with
  | .char ' ' :: value => return (name, value)
  | value => return (name, value)

/-- The headers that tell the length of the body. -/
def lengths (headers : List (Text × Text)) : List (Text × Text) :=
  headers.filter fun header => Text.lower header.1 = "content-length"

/-- The length of the body. -/
def bodyLength? (headers : List (Text × Text)) : Option Nat := do
  let (_, value) ← (lengths headers).head?
  number? value

/-- Reads a response. -/
def take? (input : Octets) : Option (Received × Octets) := do
  let (lines, rest) ← takeLines? input.length input
  match ← lines.mapM lineText? with
  | [] => none
  | statusLine :: headerLines =>
    let status ← status? statusLine
    let headers ← headerLines.mapM header?
    let length ← bodyLength? headers
    if rest.length < length then none
    else some (⟨status, headers, rest.take length⟩, rest.drop length)

/-- Reads responses up to the end. Every response takes octets, so as many steps as there are octets
suffice. -/
def takeAll? : Nat → Octets → Option (List Received)
  | 0, input => if input = [] then some [] else none
  | steps + 1, input =>
    if input = [] then some []
    else
      match take? input with
      | none => none
      | some (received, rest) => (takeAll? steps rest).map (received :: ·)

end Received

/-- What a client reads of the responses that octets consist of. -/
def receive? (input : Octets) : Option (List Received) := Received.takeAll? input.length input

/-! ## Lines -/

namespace Received

/-- A line is taken up to its end, whatever follows. -/
theorem takeLine?_append {line : Octets} (h : 13 ∉ line) (rest : Octets) :
    takeLine? (line ++ 13 :: 10 :: rest) = some (line, rest) := by
  induction line with
  | nil => rfl
  | cons octet line ih =>
    obtain ⟨hne, hline⟩ := not_or.mp (mt List.mem_cons.mpr h)
    rw [List.cons_append, takeLine?, ih hline]
    · rfl
    · exact fun _ heq => absurd heq.symm hne

/-- Lines are taken up to the empty one, whatever follows. -/
theorem takeLines?_append {lines : List Octets} (hlines : ∀ line ∈ lines, 13 ∉ line ∧ line ≠ [])
    (rest : Octets) {steps : Nat} (hsteps : lines.length < steps) :
    takeLines? steps (lines.flatMap (· ++ [13, 10]) ++ 13 :: 10 :: rest) = some (lines, rest) := by
  induction lines generalizing steps with
  | nil =>
    obtain ⟨steps, rfl⟩ : ∃ n, steps = n + 1 := ⟨steps - 1, by omega⟩
    rfl
  | cons line lines ih =>
    obtain ⟨⟨hbroken, hne⟩, hothers⟩ := List.forall_mem_cons.mp hlines
    rw [List.length_cons] at hsteps
    obtain ⟨steps, rfl⟩ : ∃ n, steps = n + 1 := ⟨steps - 1, by omega⟩
    rw [List.flatMap_cons, List.append_assoc, List.append_assoc, takeLines?]
    dsimp only [List.cons_append, List.nil_append]
    rw [takeLine?_append hbroken]
    obtain ⟨octet, octets, rfl⟩ := List.exists_cons_of_ne_nil hne
    dsimp only
    rw [ih hothers (by omega)]
    rfl

/-- Lines with their ends are at least as many octets. -/
theorem length_lt_length_lines (lines : List Octets) (rest : Octets) :
    lines.length < (lines.flatMap (· ++ [13, 10]) ++ 13 :: 10 :: rest).length := by
  induction lines with
  | nil => exact Nat.succ_pos _
  | cons line lines ih =>
    have hline : (line ++ [13, 10]).length = line.length + 2 := List.length_append
    rw [List.flatMap_cons, List.append_assoc, List.length_append, hline, List.length_cons]
    omega

/-- The text of a line is what has been written. -/
theorem lineText?_encode (text : Text) : lineText? (encode text) = some text := by
  rw [lineText?, Text.decodeUtf8_encode]
  rfl

/-- A number is read from its digits. -/
theorem number?_ofNat (n : Nat) : number? (.ofNat n) = some n := by
  rw [number?, if_pos ⟨ofNat_ne_nil n, fun _ hc => isDigit_of_mem_ofNat hc⟩, ofDigits_ofNat]

end Received

/-! ## Headers on lines -/

/-- A header is read as it is written: neither part of it is broken into lines, and the name is in
lower case and without a colon. -/
@[mk_iff]
structure IsPlain (header : Text × Text) : Prop where
  /-- The name has no carriage return. -/
  name_unbroken : CodePoint.char '\r' ∉ header.1
  /-- The value has no carriage return. -/
  value_unbroken : CodePoint.char '\r' ∉ header.2
  /-- The name is in lower case. -/
  lower : Text.lower header.1 = header.1
  /-- The name has no colon. -/
  uncoloned : CodePoint.char ':' ∉ header.1

instance (header : Text × Text) : Decidable (IsPlain header) :=
  decidable_of_iff' _ (isPlain_iff header)

/-- Headers are read as they are written, and no two share a name. -/
@[mk_iff]
structure PlainHeaders (headers : Mapping Text Text) : Prop where
  /-- No two headers share a name. -/
  distinct : headers.names.Nodup
  /-- Every header is read as it is written. -/
  plain : ∀ header ∈ headers, IsPlain header

instance (headers : Mapping Text Text) : Decidable (PlainHeaders headers) :=
  decidable_of_iff' _ (plainHeaders_iff headers)

/-- One more header that is read as it is written. -/
theorem PlainHeaders.put {headers : Mapping Text Text} (h : PlainHeaders headers)
    {name value : Text} (hplain : IsPlain (name, value)) :
    PlainHeaders (headers.put name value) where
  distinct := Mapping.nodup_names_put h.distinct name value
  plain header hheader := by
    rcases Mapping.mem_put hheader with rfl | hheader
    · exact hplain
    · exact h.plain header hheader

/-- The header that tells the length of a body. -/
def lengthHeader (n : Nat) : Text × Text := ("content-length", .ofNat n)

/-- The header that tells the length of a body is read as it is written. -/
theorem isPlain_lengthHeader (n : Nat) : IsPlain (lengthHeader n) := by
  have hname : IsPlain ("content-length", "") := by decide +kernel
  exact
    { name_unbroken := hname.name_unbroken
      value_unbroken := fun h => absurd (isDigit_of_mem_ofNat h) (by decide)
      lower := hname.lower
      uncoloned := hname.uncoloned }

variable {response : Response}

/-- What the server adds to the headers leaves them such as are read as they are written. -/
theorem PlainHeaders.sent (h : PlainHeaders response.headers) :
    PlainHeaders response.sentHeaders := by
  have htyped : PlainHeaders (if response.headers.has "content-type" then response.headers
      else response.headers.put "content-type" "text/plain") := by
    split
    · exact h
    · exact h.put (by decide +kernel)
  exact ((htyped.put (isPlain_lengthHeader _)).put (by decide +kernel)).put (by decide +kernel)

namespace Response

/-- The length of the body is sent. -/
theorem get?_length (response : Response) :
    response.sentHeaders.get? "content-length" = some (.ofNat response.body.length) := by
  rw [sentHeaders, Mapping.get?_put, if_neg (by decide), Mapping.get?_put, if_neg (by decide),
    Mapping.get?_put, if_pos rfl]

/-- The status line. -/
def statusLine (response : Response) : Text :=
  "HTTP/1.1 " ++ Text.ofInt response.status ++ " " ++ statusText response.status

/-- The line of a header without its end. -/
def fieldLine (entry : Text × Text) : Text := entry.1 ++ ": " ++ entry.2

/-- The lines of the head. -/
def lines (response : Response) : List Text :=
  response.statusLine :: response.sentHeaders.map fieldLine

/-- A response is its lines, an empty one and the body. -/
theorem octets_eq (response : Response) : response.octets =
    (response.lines.map encode).flatMap (· ++ [13, 10]) ++ 13 :: 10 :: response.body := by
  have hend : encode "\r\n" = [13, 10] := by decide
  have happend (s t : Text) : encode (s ++ t) = encode s ++ encode t := List.flatMap_append
  have hheaders (headers : Mapping Text Text) :
      encode (headers.flatMap fun (name, value) => headerLine name value) =
        ((headers.map fieldLine).map encode).flatMap (· ++ [13, 10]) := by
    induction headers with
    | nil => rfl
    | cons entry rest ih =>
      rw [List.flatMap_cons, happend, ih, List.map_cons, List.map_cons, List.flatMap_cons]
      dsimp only [headerLine]
      rw [happend, hend]
      rfl
  rw [octets, head, ← statusLine, happend, hheaders, happend, hend, lines, List.map_cons,
    List.flatMap_cons, List.append_assoc]
  rfl

/-- No line of a head is broken or empty. -/
theorem octets_of_mem_lines (h : PlainHeaders response.headers) :
    ∀ line ∈ response.lines.map encode, 13 ∉ line ∧ line ≠ [] := by
  have hunbroken {line : Text} (hline : CodePoint.char '\r' ∉ line) : 13 ∉ encode line :=
    Text.notMem_encode (c := .char '\r') (by decide) hline
  have hfilled {line : Text} (hline : line ≠ []) : encode line ≠ [] := by
    obtain ⟨c, rest, rfl⟩ := List.exists_cons_of_ne_nil hline
    exact List.append_ne_nil_of_left_ne_nil (Text.encodePoint_ne_nil c) _
  have hstatus : CodePoint.char '\r' ∉ response.statusLine := by
    have hcode : CodePoint.char '\r' ∉ Text.ofInt response.status :=
      notMem_ofInt (by decide) rfl response.status
    have hwords : CodePoint.char '\r' ∉ statusText response.status := by
      unfold statusText
      split_ifs
      all_goals decide
    simp only [statusLine, List.mem_append, not_or]
    exact ⟨⟨⟨by decide, hcode⟩, by decide⟩, hwords⟩
  rw [List.forall_mem_map, lines, List.forall_mem_cons, List.forall_mem_map]
  refine ⟨⟨hunbroken hstatus, hfilled (List.cons_ne_nil _ _)⟩, fun header hheader => ?_⟩
  have hplain := h.sent.plain header hheader
  have hfield : CodePoint.char '\r' ∉ fieldLine header := by
    simp only [fieldLine, List.mem_append, not_or]
    exact ⟨⟨hplain.name_unbroken, by decide⟩, hplain.value_unbroken⟩
  have hcolon : (": " : Text) ≠ [] := List.cons_ne_nil _ _
  exact ⟨hunbroken hfield, hfilled
    (List.append_ne_nil_of_left_ne_nil (List.append_ne_nil_of_right_ne_nil _ hcolon) _)⟩

end Response

/-! ## Responses -/

/-- What a client reads of a response: the headers that are sent. -/
def Response.received (response : Response) : Received where
  status := response.status
  headers := response.sentHeaders
  body := response.body

namespace Received

/-- The status is read from the status line. -/
theorem status?_statusLine (response : Response) :
    status? response.statusLine = some response.status := by
  have hcode : CodePoint.char ' ' ∉ Text.ofInt response.status :=
    notMem_ofInt (by decide) rfl response.status
  have hline : response.statusLine = "HTTP/1.1" ++ .char ' ' ::
      (Text.ofInt response.status ++ .char ' ' :: Response.statusText response.status) := by
    simp only [Response.statusLine, List.append_assoc]
    rfl
  rw [status?, hline, Text.splitFirst?_append _ (by decide)]
  dsimp only [Option.bind_eq_bind, Option.bind_some]
  rw [Text.splitFirst?_append _ hcode]
  dsimp only [Option.bind_some]
  rw [takeSign_ofInt]
  dsimp only
  rw [number?_ofNat]
  exact congrArg some (signed_natAbs response.status)

/-- A header is read from its line. -/
theorem header?_fieldLine {header : Text × Text} (h : IsPlain header) :
    header? (Response.fieldLine header) = some header := by
  have hline : Response.fieldLine header =
      header.1 ++ .char ':' :: (.char ' ' :: header.2) := List.append_assoc _ _ _
  rw [header?, hline, Text.splitFirst?_append _ h.uncoloned]
  rfl

/-- One header tells the length of the body. -/
theorem lengths_sentHeaders (h : PlainHeaders response.headers) :
    lengths response.sentHeaders = [lengthHeader response.body.length] := by
  have hlower : lengths response.sentHeaders =
      response.sentHeaders.filter fun header => header.1 = Text.ofString "content-length" := by
    refine List.filter_congr fun header hheader => ?_
    rw [(h.sent.plain header hheader).lower]
  rw [hlower, Mapping.filter_name h.sent.distinct response.get?_length]
  rfl

/-- A response is read from its octets, whatever follows. -/
theorem take?_octets (h : PlainHeaders response.headers) (rest : Octets) :
    take? (response.octets ++ rest) = some (response.received, rest) := by
  have hoctets : response.octets ++ rest = (response.lines.map encode).flatMap (· ++ [13, 10]) ++
      13 :: 10 :: (response.body ++ rest) := by
    rw [response.octets_eq, List.append_assoc]
    rfl
  have hlines := takeLines?_append (Response.octets_of_mem_lines h) (response.body ++ rest)
    (length_lt_length_lines _ (response.body ++ rest))
  have htexts : (response.lines.map encode).mapM lineText? = some (response.lines.map id) :=
    Outcome.mapM_map fun line _ => lineText?_encode line
  have hheaders : (response.sentHeaders.map Response.fieldLine).mapM header? =
      some (response.sentHeaders.map id) :=
    Outcome.mapM_map fun header hheader => header?_fieldLine (h.sent.plain header hheader)
  have hlength : bodyLength? response.sentHeaders = some response.body.length := by
    rw [bodyLength?, lengths_sentHeaders h]
    exact number?_ofNat _
  have henough : ¬(response.body ++ rest).length < response.body.length := by
    rw [List.length_append]
    omega
  rw [hoctets, take?, hlines]
  dsimp only [Option.bind_eq_bind, Option.bind_some]
  rw [htexts, List.map_id, Response.lines]
  dsimp only [Option.bind_some]
  rw [status?_statusLine, hheaders, List.map_id]
  dsimp only [Option.bind_some]
  rw [hlength]
  dsimp only [Option.bind_some]
  rw [if_neg henough, List.take_left, List.drop_left]
  rfl

/-- The responses of a sequence are read one after the other. -/
theorem takeAll?_octets {responses : List Response}
    (h : ∀ response ∈ responses, PlainHeaders response.headers) {steps : Nat}
    (hsteps : responses.length ≤ steps) :
    takeAll? steps (responses.flatMap Response.octets) =
      some (responses.map Response.received) := by
  induction responses generalizing steps with
  | nil => cases steps <;> rfl
  | cons response responses ih =>
    obtain ⟨hfirst, hothers⟩ := List.forall_mem_cons.mp h
    rw [List.length_cons] at hsteps
    obtain ⟨steps, rfl⟩ : ∃ n, steps = n + 1 := ⟨steps - 1, by omega⟩
    have hne := List.append_ne_nil_of_left_ne_nil response.octets_ne_nil
      (responses.flatMap Response.octets)
    rw [List.flatMap_cons, takeAll?, if_neg hne, take?_octets hfirst]
    dsimp only
    rw [ih hothers (by omega)]
    rfl

end Received

/-- A client reads from the octets of responses their statuses, the headers that are sent and the
bodies. -/
theorem receive?_octets {responses : List Response}
    (h : ∀ response ∈ responses, PlainHeaders response.headers) :
    receive? (responses.flatMap Response.octets) = some (responses.map Response.received) := by
  refine Received.takeAll?_octets h ?_
  induction responses with
  | nil => exact Nat.le_refl 0
  | cons response responses ih =>
    have hoctets := List.length_pos_of_ne_nil response.octets_ne_nil
    have hothers := ih (List.forall_mem_cons.mp h).2
    rw [List.flatMap_cons, List.length_append, List.length_cons]
    omega

/-! ## What was given -/

/-- The names of the headers that the server sets in every response. -/
def serverNames : List Text := ["content-length", "connection", "server"]

/-- The headers that the server does not set. -/
def supplied (headers : List (Text × Text)) : List (Text × Text) :=
  headers.filter fun header => !serverNames.contains header.1

/-- The type of plain text. -/
def plainText : Text × Text := ("content-type", "text/plain")

/-- What a client has read of a response is what was given, with the type of plain text if no type
was. -/
structure Received.Recovers (received : Received) (response : Response) : Prop where
  /-- The status is the one that was given. -/
  status : received.status = response.status
  /-- The body is the one that was given. -/
  body : received.body = response.body
  /-- The headers that the server does not set were given, all but the type of plain text. -/
  headers : supplied received.headers = supplied response.headers ++
    if response.headers.has "content-type" then [] else [plainText]
  /-- One header tells the length, which is that of the body. -/
  lengths : Received.lengths received.headers = [lengthHeader response.body.length]

/-- The headers that the server does not set are the ones that were given, and the type of plain
text if no type was. -/
theorem supplied_sentHeaders (response : Response) :
    supplied response.sentHeaders = supplied response.headers ++
      if response.headers.has "content-type" then [] else [plainText] := by
  have hset {headers : Mapping Text Text} {name : Text} (hname : serverNames.contains name = true)
      (value : Text) : supplied (headers.put name value) = supplied headers :=
    Mapping.filter_put (fun name => !serverNames.contains name) (by rw [hname]; rfl) value
  rw [Response.sentHeaders, hset (by decide), hset (by decide), hset (by decide)]
  split
  · exact (List.append_nil _).symm
  · next huntyped =>
    have hnew : plainText.1 ∉ response.headers.names := mt Mapping.isSome_get?_iff.mpr huntyped
    have hput : response.headers.put plainText.1 plainText.2 = response.headers ++ [plainText] :=
      Mapping.put_of_notMem hnew plainText.2
    exact (congrArg supplied hput).trans (List.filter_append _ _)

/-- Responses can be split again: from their octets a client reads as many responses, each of which
has the status, the body and the headers that were given, and the type of plain text if no type
was. -/
theorem responses_recovered {responses : List Response}
    (h : ∀ response ∈ responses, PlainHeaders response.headers) :
    ∃ received, receive? (responses.flatMap Response.octets) = some received ∧
      List.Forall₂ Received.Recovers received responses := by
  refine ⟨_, receive?_octets h, ?_⟩
  rw [List.forall₂_map_left_iff, List.forall₂_same]
  exact fun response hresponse =>
    ⟨rfl, rfl, supplied_sentHeaders response, Received.lengths_sentHeaders (h response hresponse)⟩

/-- Responses of which the bodies look like heads and the headers like the ones that the server
sets. -/
def nestedResponses : List Response :=
  [⟨404, [("content-length", "99"), ("x-größe", " a: b "), ("connection", "close")],
      encode "\r\n\r\nHTTP/1.1 200 OK\r\ncontent-length: 0\r\n\r\n"⟩,
    ⟨-1, [], []⟩,
    ⟨200, [("server", ""), ("content-type", "text/html"), ("", "x")], [0, 13, 10, 255]⟩]

theorem responses_recovered_nested :
    (∀ response ∈ nestedResponses, PlainHeaders response.headers) ∧
      ∃ received, receive? (nestedResponses.flatMap Response.octets) = some received ∧
        List.Forall₂ Received.Recovers received nestedResponses := by
  have hplain : ∀ response ∈ nestedResponses, PlainHeaders response.headers := by decide +kernel
  exact ⟨hplain, responses_recovered hplain⟩

/-- No client recovers the headers that were given: where no type was given, the octets are those of
a response with the type of plain text. -/
theorem untyped_not_recovered :
    PlainHeaders (Response.ofStatus 200 []).headers ∧
      supplied (Response.ofStatus 200 []).headers = [] ∧
      (receive? (Response.ofStatus 200 []).octets).map (·.map (supplied ·.headers)) =
        some [[plainText]] ∧
      ¬∃ recover : Octets → List (Text × Text), ∀ response : Response,
        PlainHeaders response.headers → recover response.octets = supplied response.headers := by
  have huntyped : PlainHeaders (Response.ofStatus 200 []).headers := by decide +kernel
  have htyped : PlainHeaders (Response.ofStatus 200 [plainText]).headers := by decide +kernel
  have hsame : (Response.ofStatus 200 []).octets = (Response.ofStatus 200 [plainText]).octets := by
    decide +kernel
  refine ⟨huntyped, rfl, by decide +kernel, ?_⟩
  rintro ⟨recover, hrecover⟩
  have hboth := hrecover _ huntyped
  rw [hsame, hrecover _ htyped] at hboth
  exact absurd hboth (by decide)

end RelStore.Http
