import RelStore.Http.Service
import RelStore.Proofs.Mapping

/-!
# Where a request ends

A client writes a request as lines and a body (`Sent`). When the lines are not too long and as many
octets follow them as the headers tell (`Sent.Complete`), the server reads the request from just
these octets, whatever comes after them (`takeRequest_octets`): a line ends at its first line feed,
the headers end at the first empty line, and of the rest only the octets of the body are taken.

The server then goes on with what is left (`serve_eq`), so what it has written and the state it has
come to tell all about the requests before (`Served`).
-/

namespace RelStore.Http

/-! ## Lines -/

/-- Octets that can stand on a line before its end. -/
def IsLine (line : Text.Octets) : Prop := newline ∉ line ∧ line.length ≤ lineLimit

instance (line : Text.Octets) : Decidable (IsLine line) :=
  inferInstanceAs (Decidable (newline ∉ line ∧ line.length ≤ lineLimit))

/-- A line is taken up to its end, whatever follows. -/
theorem takeLine?_append (ended : Bool) {line : Text.Octets} (h : IsLine line)
    (rest : Text.Octets) :
    takeLine? ended (line ++ newline :: rest) = some (line ++ [newline], rest) := by
  have hline : ∀ octet ∈ line, (octet != newline) = true := fun octet hoctet =>
    bne_iff_ne.mpr fun heq => h.1 (heq ▸ hoctet)
  have htake : (line ++ newline :: rest).takeWhile (· != newline) = line := by
    rw [List.takeWhile_append_of_pos hline, List.takeWhile_cons_of_neg (by decide),
      List.append_nil]
  have hdrop : (line ++ newline :: rest).dropWhile (· != newline) = newline :: rest := by
    rw [List.dropWhile_append_of_pos hline, List.dropWhile_cons_of_neg (by decide)]
  rw [takeLine?, htake, hdrop]
  exact if_neg (Nat.not_lt.mpr h.2)

/-- A line and what follows it are all that was there. -/
theorem length_of_takeLine? {ended : Bool} {input line rest : Text.Octets}
    (h : takeLine? ended input = some (line, rest)) :
    line.length + rest.length = input.length := by
  have hboth := congrArg List.length
    (List.takeWhile_append_dropWhile (p := fun octet : UInt8 => octet != newline) (l := input))
  rw [List.length_append] at hboth
  unfold takeLine? at h
  dsimp only at h
  split at h
  · cases h
  · split at h
    · next heq =>
      cases h
      rw [heq, List.length_cons] at hboth
      rw [List.length_append, List.length_singleton]
      omega
    · next heq =>
      split at h
      · cases h
        rw [heq] at hboth
        exact hboth
      · cases h

/-! ## Headers -/

/-- The name and the value of a header, if a text is one. -/
def field? (line : Text) : Option (Text × Text) :=
  (line.splitFirst? ':').map fun (name, value) => (Text.lower name.strip, value.strip)

/-- A header is put under its name. -/
theorem addHeader_eq (headers : Mapping Text Text) (line : Text) :
    addHeader headers line = headers.putAll (field? line).toList := by
  unfold addHeader field?
  cases line.splitFirst? ':' <;> rfl

/-- Headers are taken up to the empty line, whatever follows. -/
theorem takeHeaders?_append (ended : Bool) {lines : List Text.Octets} {last : Text.Octets}
    (hlines : ∀ line ∈ lines, IsLine line ∧ isEmptyLine (line ++ [newline]) = false)
    (hlast : IsLine last ∧ isEmptyLine (last ++ [newline]) = true) {steps : Nat}
    (hsteps : lines.length < steps) (headers : Mapping Text Text) (rest : Text.Octets) :
    takeHeaders? ended steps headers
        (lines.flatMap (· ++ [newline]) ++ (last ++ newline :: rest)) =
      some (headers.putAll (lines.filterMap fun line => field? (lineText (line ++ [newline]))),
        rest) := by
  induction lines generalizing steps headers with
  | nil =>
    obtain ⟨steps, rfl⟩ := Nat.exists_eq_add_of_lt hsteps
    rw [List.flatMap_nil, List.nil_append, takeHeaders?, takeLine?_append ended hlast.1]
    dsimp only
    rw [hlast.2]
    rfl
  | cons line lines ih =>
    obtain ⟨⟨hline, hfull⟩, hothers⟩ := List.forall_mem_cons.mp hlines
    obtain ⟨steps, rfl⟩ : ∃ n, steps = n + 1 := ⟨steps - 1, by omega⟩
    rw [List.length_cons, Nat.add_lt_add_iff_right] at hsteps
    have hinput : (line :: lines).flatMap (· ++ [newline]) ++ (last ++ newline :: rest) =
        line ++ newline :: (lines.flatMap (· ++ [newline]) ++ (last ++ newline :: rest)) := by
      rw [List.flatMap_cons, List.append_assoc, List.append_assoc, List.singleton_append]
    rw [hinput, takeHeaders?, takeLine?_append ended hline]
    dsimp only
    rw [hfull, if_neg Bool.false_ne_true, ih hothers hsteps, addHeader_eq, List.filterMap_cons]
    cases field? (lineText (line ++ [newline])) <;> rfl

/-- What follows the headers is no longer than what was there. -/
theorem length_of_takeHeaders? {ended : Bool} {steps : Nat} {found headers : Mapping Text Text}
    {input rest : Text.Octets}
    (h : takeHeaders? ended steps found input = some (headers, rest)) :
    rest.length ≤ input.length := by
  induction steps generalizing found input with
  | zero => cases h
  | succ steps ih =>
    unfold takeHeaders? at h
    split at h
    · cases h
    · next line after hline =>
      have hlength := length_of_takeLine? hline
      split at h
      · cases h
        omega
      · have hafter := ih h
        omega

/-- Ended lines take at least an octet each. -/
theorem length_le_length_flatMap (lines : List Text.Octets) :
    lines.length ≤ (lines.flatMap (· ++ [newline])).length := by
  induction lines with
  | nil => exact Nat.le_refl 0
  | cons line lines ih =>
    rw [List.flatMap_cons, List.length_append, List.length_append, List.length_singleton,
      List.length_cons]
    omega

/-! ## Requests -/

/-- A request as a client writes it: lines without the line feeds that end them, and a body. -/
structure Sent where
  /-- The request line. -/
  requestLine : Text.Octets
  /-- The lines of the headers. -/
  headerLines : List Text.Octets
  /-- The line that ends the headers. -/
  emptyLine : Text.Octets
  /-- The body. -/
  body : Text.Octets

namespace Sent

/-- A request of texts, whose lines end as the protocol says. -/
def ofTexts (requestLine : Text) (headerLines : List Text) (body : Text) : Sent where
  requestLine := Text.encode requestLine ++ [13]
  headerLines := headerLines.map fun line => Text.encode line ++ [13]
  emptyLine := [13]
  body := Text.encode body

/-- A request on the wire. -/
def octets (sent : Sent) : Text.Octets :=
  sent.requestLine ++ newline ::
    (sent.headerLines.flatMap (· ++ [newline]) ++ (sent.emptyLine ++ newline :: sent.body))

/-- The method, the target and the version that the request line gives. -/
def parts? (sent : Sent) : Option (Text × Text × Text) :=
  requestParts? (lineText (sent.requestLine ++ [newline]))

/-- What is asked for, if the request line names it. -/
def target? (sent : Sent) : Option Target := sent.parts?.bind fun parts => Target.parse? parts.2.1

/-- The names and values of the headers, in order. -/
def fields (sent : Sent) : List (Text × Text) :=
  sent.headerLines.filterMap fun line => field? (lineText (line ++ [newline]))

/-- The headers, of which a later one takes the place of an earlier one of its name. -/
def headers (sent : Sent) : Mapping Text Text := .ofList sent.fields

/-- Whether the client asks to end the connection after a request. -/
def asksToClose (sent : Sent) : Bool :=
  (sent.headers.get? "connection").any (Text.lower · == "close")

/-- The request that the server makes of what was sent, if the target and the body can be read. -/
def request? (sent : Sent) : Option Request :=
  match sent.parts?, sent.target?, Body.ofOctets sent.body with
  | some (method, _, _), some target, .ok body =>
    some ⟨Text.upper method, target.path, sent.headers, target.query, body⟩
  | _, _, _ => none

/-- The limit of JSON that the body goes past, if it goes past one. -/
def limit? (sent : Sent) : Option Json.Limit :=
  match Body.ofOctets sent.body with
  | .ok _ => none
  | .error past => some past

/-- The lines of a request are what they are meant to be. -/
@[mk_iff]
structure Lined (sent : Sent) : Prop where
  /-- The request line has three parts. -/
  parts : sent.parts?.isSome = true
  /-- The request line is a line. -/
  requestLine : IsLine sent.requestLine
  /-- The headers are on lines, none of which is empty. -/
  headerLines : ∀ line ∈ sent.headerLines,
    IsLine line ∧ isEmptyLine (line ++ [newline]) = false
  /-- The headers end with an empty line. -/
  emptyLine : IsLine sent.emptyLine ∧ isEmptyLine (sent.emptyLine ++ [newline]) = true

instance (sent : Sent) : Decidable sent.Lined := decidable_of_iff' _ (lined_iff sent)

/-- A request is there in full. -/
@[mk_iff]
structure Complete (sent : Sent) : Prop extends Lined sent where
  /-- There are as many octets in the body as the headers tell, and none if they tell no number. -/
  body : sent.body.length = (bodyLength sent.headers).toOption.getD 0

instance (sent : Sent) : Decidable sent.Complete := decidable_of_iff' _ (complete_iff sent)

/-- A request is made of lines when they name what is asked for and the body can be read. -/
theorem isSome_request?_iff {sent : Sent} (h : sent.Lined) :
    sent.request?.isSome = true ↔ sent.target?.isSome = true ∧ sent.limit? = none := by
  obtain ⟨parts, hparts⟩ := Option.isSome_iff_exists.mp h.parts
  unfold request? limit?
  rw [hparts]
  cases sent.target? with
  | none => exact ⟨nofun, fun h => nomatch h.1⟩
  | some target =>
    cases Body.ofOctets sent.body with
    | error past => exact ⟨nofun, fun h => nomatch h.2⟩
    | ok body => exact ⟨fun _ => ⟨rfl, rfl⟩, fun _ => rfl⟩

/-- A request that is there in full is read from its octets, whatever follows. -/
theorem takeRequest_octets {sent : Sent} (h : sent.Complete) (ended : Bool)
    (rest : Text.Octets) :
    takeRequest ended (sent.octets ++ rest) =
      if sent.target?.isNone then .nothing
      else
        match bodyLength sent.headers with
        | .error (status, message) => .refused status message
        | .ok _ => sent.request?.elim .nothing (.request · rest) := by
  obtain ⟨⟨method, text, version⟩, hparts⟩ := Option.isSome_iff_exists.mp h.parts
  have hinput : sent.octets ++ rest = sent.requestLine ++ newline ::
      (sent.headerLines.flatMap (· ++ [newline]) ++
        (sent.emptyLine ++ newline :: (sent.body ++ rest))) := by
    simp only [octets, List.append_assoc, List.cons_append]
  have htarget : sent.target? = Target.parse? text := by rw [target?, hparts, Option.bind_some]
  obtain ⟨octet, line, hline⟩ :=
    List.exists_cons_of_ne_nil (List.append_ne_nil_of_right_ne_nil sent.requestLine
      (List.cons_ne_nil newline []))
  -- A line that is read is told from no line at all by its first octet, which may be its end.
  rw [takeRequest, hinput, takeLine?_append ended h.requestLine, hline]
  dsimp only
  rw [← hline, ← parts?, hparts]
  dsimp only
  rw [← htarget]
  cases hasked : sent.target? with
  | none => rfl
  | some target =>
    have hsteps := length_le_length_flatMap sent.headerLines
    dsimp only
    rw [takeAfterLine, takeHeaders?_append ended h.headerLines h.emptyLine
      (by rw [List.length_append]; omega)]
    dsimp only
    rw [← fields, ← Mapping.ofList, ← headers]
    cases hlength : bodyLength sent.headers with
    | error refusal => rfl
    | ok length =>
      -- As many octets are taken as the body has, so the rest begins where the body ends.
      have hbody : sent.body.length = length := by rw [h.body, hlength]; rfl
      dsimp only
      rw [if_neg (by rw [List.length_append]; omega), ← hbody, List.take_left, List.drop_left,
        request?, hparts, hasked]
      cases Body.ofOctets sent.body <;> rfl

/-- The server sees in the headers of a request whether the client asks to close. -/
theorem asksToClose_of_request? {sent : Sent} {request : Request}
    (h : sent.request? = some request) : Http.asksToClose request = sent.asksToClose := by
  have hheaders : request.headers = sent.headers := by
    unfold request? at h
    split at h
    · cases h
      rfl
    · cases h
  unfold Http.asksToClose asksToClose
  rw [hheaders]
  cases sent.headers.get? "connection" <;> rfl

/-- The server reads a request from its octets, whatever follows. -/
def ReadAs (sent : Sent) (ended : Bool) (request : Request) : Prop :=
  ∀ rest, takeRequest ended (sent.octets ++ rest) = .request request rest

/-- A request that is there in full is read if it can be made of what was sent and the headers tell
a length that the server takes. -/
theorem Complete.readAs {sent : Sent} {request : Request} (h : sent.Complete)
    (hlength : (bodyLength sent.headers).toOption.isSome = true)
    (hrequest : sent.request? = some request) (ended : Bool) : sent.ReadAs ended request := by
  intro rest
  have hsome : sent.request?.isSome = true := by rw [hrequest]; rfl
  have htarget : ¬sent.target?.isNone = true := by
    rw [Option.isNone_iff_eq_none, ← Option.not_isSome_iff_eq_none, not_not]
    exact ((isSome_request?_iff h.toLined).mp hsome).1
  rw [takeRequest_octets h, if_neg htarget, hrequest]
  cases hbody : bodyLength sent.headers with
  | error refusal =>
    rw [hbody] at hlength
    cases hlength
  | ok length => rfl

end Sent

/-! ## Connections -/

/-- What follows the rest of a request is no longer than what follows its request line. -/
theorem length_of_takeAfterLine {ended : Bool} {method : Text} {target : Target}
    {input rest : Text.Octets} {request : Request}
    (h : takeAfterLine ended method target input = .request request rest) :
    rest.length ≤ input.length := by
  unfold takeAfterLine at h
  split at h
  · cases h
  · next headers after hheaders =>
    have hafter := length_of_takeHeaders? hheaders
    split at h
    · cases h
    · split at h
      · cases h
      · split at h
        · cases h
        · cases h
          rw [List.length_drop]
          omega

/-- A request takes at least one octet. -/
theorem length_of_takeRequest {ended : Bool} {input rest : Text.Octets} {request : Request}
    (h : takeRequest ended input = .request request rest) : rest.length < input.length := by
  unfold takeRequest at h
  split at h
  · cases h
  · cases h
  · next line after hnonempty hline =>
    have hlength := length_of_takeLine? hline
    have hpos : 0 < line.length := List.length_pos_iff.mpr hnonempty
    split at h
    · cases h
    · split at h
      · cases h
      · have hafter := length_of_takeAfterLine h
        omega

variable {σ : Type} {routes : List (Route σ)} {ended : Bool}

/-- Nothing is answered to a client that has sent nothing. -/
theorem serveWithin_nil (steps : Nat) (state : σ) :
    serveWithin routes ended steps state [] = ([], state) := by
  have hnothing : takeRequest ended [] = .nothing := by cases ended <;> rfl
  cases steps with
  | zero => rfl
  | succ steps => rw [serveWithin, hnothing]

/-- More steps than there are octets change nothing. -/
theorem serveWithin_congr {n m : Nat} {input : Text.Octets} (hn : input.length ≤ n)
    (hm : input.length ≤ m) (state : σ) :
    serveWithin routes ended n state input = serveWithin routes ended m state input := by
  induction n generalizing m input state with
  | zero =>
    obtain rfl := List.eq_nil_of_length_eq_zero (Nat.le_zero.mp hn)
    rw [serveWithin_nil, serveWithin_nil]
  | succ n ih =>
    -- Both bounds fall by one with a request, and a request takes an octet at least.
    cases m with
    | zero =>
      obtain rfl := List.eq_nil_of_length_eq_zero (Nat.le_zero.mp hm)
      rw [serveWithin_nil, serveWithin_nil]
    | succ m =>
      rw [serveWithin, serveWithin]
      cases htaken : takeRequest ended input with
      | nothing => rfl
      | refused status message => rfl
      | request request rest =>
        have hrest := length_of_takeRequest htaken
        dsimp only
        rw [ih (Nat.le_of_lt_succ (Nat.lt_of_lt_of_le hrest hn))
          (Nat.le_of_lt_succ (Nat.lt_of_lt_of_le hrest hm))]

/-- The server answers the first request, unless there is none or it is refused, and then serves
what follows it. -/
theorem serve_eq (state : σ) (input : Text.Octets) :
    serve routes ended state input =
      match takeRequest ended input with
      | .nothing => ([], state)
      | .refused status message => ((Response.ofError status message).octets, state)
      | .request request rest =>
        let (response, state) := handle routes request state
        if asksToClose request then (response.octets, state)
        else
          let (written, state) := serve routes ended state rest
          (response.octets ++ written, state) := by
  rw [serve, serveWithin_congr (Nat.le_refl _) (Nat.le_succ _), serveWithin]
  cases htaken : takeRequest ended input with
  | nothing => rfl
  | refused status message => rfl
  | request request rest =>
    have hrest := length_of_takeRequest htaken
    dsimp only
    rw [serveWithin_congr (Nat.le_of_lt hrest) (Nat.le_refl rest.length), ← serve]

/-- Requests at the start of an input have been served: what has been written, the state that they
have led to, and what is left of the input. -/
inductive Served (routes : List (Route σ)) (ended : Bool) :
    σ → Text.Octets → Text.Octets → σ → Text.Octets → Prop where
  /-- No request has been served yet. -/
  | start (state : σ) (input : Text.Octets) : Served routes ended state input [] state input
  /-- A request is served, and others after it. -/
  | next {state last : σ} {input rest written left : Text.Octets} {request : Request}
      (taken : takeRequest ended input = .request request rest)
      (stays : asksToClose request = false)
      (others : Served routes ended (handle routes request state).2 rest written last left) :
      Served routes ended state input
        ((handle routes request state).1.octets ++ written) last left

/-- The server goes on from the requests that have been served. -/
theorem Served.serve_eq {state last : σ} {input written left : Text.Octets}
    (h : Served routes ended state input written last left) :
    serve routes ended state input =
      (written ++ (serve routes ended last left).1, (serve routes ended last left).2) := by
  induction h with
  | start state input => rfl
  | @next state last input rest written left request taken stays others ih =>
    rw [Http.serve_eq, taken]
    dsimp only
    rw [if_neg (Bool.eq_false_iff.mp stays), ih, List.append_assoc]

end RelStore.Http
