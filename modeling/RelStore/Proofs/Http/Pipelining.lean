import RelStore.Http.Service
import RelStore.Proofs.Http.Headers

/-!
# Requests one after the other

A client may send requests without waiting for the responses. As long as each of them tells the
length of its body in decimal (`Sent.Framed`), with no more digits than the server reads, and no
body goes past a limit of JSON, the server writes just the responses, in order, each to the state
that the one before has left, and every request is read from its own octets (`serve_pipelined`).
Without the two provisos a request may be refused or end the connection (`serve_unread`).
-/

namespace RelStore.Http

/-! ## Requests that tell their lengths -/

namespace Sent

/-- What the headers tell about the length of the body. -/
def lengths (sent : Sent) : List Text :=
  (sent.fields.filter fun field => field.1 = ("content-length" : Text)).map (·.2)

/-- Lengths are told in decimal and only once, or not at all when there is nothing to measure. -/
def Tells : List Text → Nat → Prop
  | [], n => n = 0
  | [text], n => IsDecimal text n
  | _ :: _ :: _, _ => False

instance : (texts : List Text) → (n : Nat) → Decidable (Tells texts n)
  | [], n => inferInstanceAs (Decidable (n = 0))
  | [text], n => inferInstanceAs (Decidable (IsDecimal text n))
  | _ :: _ :: _, _ => isFalse id

/-- A request whose end can be told by its headers: they give the length of the body in decimal, and
no length at all only when there is no body. -/
@[mk_iff]
structure Framed (sent : Sent) : Prop extends Lined sent where
  /-- The request line names what is asked for. -/
  target : sent.target?.isSome = true
  /-- The headers tell the length of the body. -/
  length : Tells sent.lengths sent.body.length
  /-- The body is not too large. -/
  size : sent.body.length ≤ bodyLimit

instance (sent : Sent) : Decidable sent.Framed := decidable_of_iff' _ (framed_iff sent)

variable {sent : Sent}

/-- Where the headers tell no length, there is no body. -/
theorem bodyLength_of_lengths_nil (h : sent.lengths = []) : bodyLength sent.headers = .ok 0 := by
  have hnone : sent.headers.get? "content-length" = none := by
    rw [headers, Mapping.ofList, Mapping.get?_putAll_filter rfl, List.map_eq_nil_iff.mp h]
    rfl
  rw [bodyLength, hnone]

/-- A length that the headers tell in decimal is the length of the body, if it can be read and the
body is not too large. -/
theorem bodyLength_of_lengths {text : Text} {n : Nat} (h : sent.lengths = [text])
    (hdecimal : IsDecimal text n) (hsize : n ≤ bodyLimit) :
    bodyLength sent.headers =
      if text.length ≤ digitLimit then .ok n
      else .error (400, "Invalid Content-Length header") := by
  obtain ⟨⟨name, value⟩, hfilter, rfl⟩ := List.map_eq_singleton_iff.mp h
  have hname : name = "content-length" := by
    have hmem := List.mem_filter.mp (hfilter ▸ List.mem_singleton_self (name, value))
    exact of_decide_eq_true hmem.2
  have hvalue : sent.headers.get? "content-length" = some value := by
    rw [headers, Mapping.ofList, Mapping.get?_putAll_filter rfl, hfilter, hname]
    rfl
  rw [bodyLength, hvalue]
  dsimp only at hdecimal ⊢
  rw [readInteger?_of_isDecimal hdecimal]
  by_cases hdigits : value.length ≤ digitLimit
  · rw [if_pos hdigits, if_pos hdigits]
    dsimp only
    rw [if_neg (by omega)]
    rfl
  · rw [if_neg hdigits, if_neg hdigits]

/-- The body of a framed request is as long as the server takes it to be, if no length has too many
digits. -/
theorem Framed.bodyLength_eq (h : sent.Framed)
    (hdigits : ∀ text ∈ sent.lengths, text.length ≤ digitLimit) :
    bodyLength sent.headers = .ok sent.body.length := by
  have htells := h.length
  match hlengths : sent.lengths with
  | [] =>
    rw [hlengths] at htells
    rw [bodyLength_of_lengths_nil hlengths, htells]
  | [text] =>
    rw [hlengths] at htells hdigits
    rw [bodyLength_of_lengths hlengths htells h.size, if_pos (hdigits text List.mem_cons_self)]
  | _ :: _ :: _ =>
    rw [hlengths] at htells
    exact htells.elim

/-- A framed request is read from its octets if no length has too many digits and the body stays
within the limits of JSON. -/
theorem Framed.readAs (h : sent.Framed)
    (hdigits : ∀ text ∈ sent.lengths, text.length ≤ digitLimit)
    (hlimit : sent.limit? = none) (ended : Bool) :
    ∃ request, sent.request? = some request ∧ sent.ReadAs ended request := by
  have hlength := h.bodyLength_eq hdigits
  have hcomplete : sent.Complete := { h with body := by rw [hlength]; rfl }
  obtain ⟨request, hrequest⟩ := Option.isSome_iff_exists.mp
    ((isSome_request?_iff h.toLined).mpr ⟨h.target, hlimit⟩)
  exact ⟨request, hrequest, hcomplete.readAs (by rw [hlength]; rfl) hrequest ended⟩

end Sent

/-! ## Connections -/

variable {σ : Type} {routes : List (Route σ)} {ended : Bool}

/-- The responses to requests one after the other, each to the state that the one before has left,
and the last state. -/
def answers (routes : List (Route σ)) (state : σ) : List Request → Text.Octets × σ
  | [] => ([], state)
  | request :: others =>
    let (response, state) := handle routes request state
    let (written, state) := answers routes state others
    (response.octets ++ written, state)

/-- The responses to some requests and then others. -/
theorem answers_append (state : σ) (before after : List Request) :
    answers routes state (before ++ after) =
      ((answers routes state before).1 ++ (answers routes (answers routes state before).2 after).1,
        (answers routes (answers routes state before).2 after).2) := by
  induction before generalizing state with
  | nil => rfl
  | cons request others ih =>
    rw [List.cons_append, answers]
    dsimp only
    rw [ih]
    simp only [answers, List.append_assoc]

/-- Requests that are read from their octets, and that do not ask to close, are served in order. -/
theorem served_flatMap (routes : List (Route σ)) {before : List Sent}
    (hread : ∀ sent ∈ before, ∃ request, sent.request? = some request ∧ sent.ReadAs ended request)
    (hstays : ∀ sent ∈ before, sent.asksToClose = false) (state : σ) (rest : Text.Octets) :
    Served routes ended state (before.flatMap Sent.octets ++ rest)
      (answers routes state (before.filterMap Sent.request?)).1
      (answers routes state (before.filterMap Sent.request?)).2 rest := by
  -- Each request leaves another state to the next one, so the induction is for all states.
  induction before generalizing state with
  | nil => exact .start state rest
  | cons sent others ih =>
    obtain ⟨⟨request, hrequest, hreads⟩, hothers⟩ := List.forall_mem_cons.mp hread
    obtain ⟨hstay, hstays⟩ := List.forall_mem_cons.mp hstays
    rw [List.filterMap_cons_some hrequest, List.flatMap_cons, List.append_assoc]
    have hopen : asksToClose request = false := by
      rw [Sent.asksToClose_of_request? hrequest, hstay]
    exact .next (hreads _) hopen (ih hothers hstays (handle routes request state).2)

/-- A request that is read from its octets is answered, and nothing else when nothing follows. -/
theorem serve_last {sent : Sent} {request : Request} (h : sent.ReadAs ended request) (state : σ) :
    serve routes ended state sent.octets = answers routes state [request] := by
  have hread : takeRequest ended sent.octets = .request request [] := by
    rw [← h [], List.append_nil]
  have hend (state : σ) : serve routes ended state [] = ([], state) := serveWithin_nil 0 state
  rw [serve_eq, hread]
  dsimp only
  rw [hend, List.append_nil, ite_self]
  simp only [answers, List.append_nil]

/-- Pipelining keeps requests apart: when every request tells the length of its body, with no more
digits than are read, no body goes past a limit of JSON, and no request but the last one asks to
close, the server writes the responses in order, and it reads each request from its own octets. -/
theorem serve_pipelined (routes : List (Route σ)) (ended : Bool) (state : σ) {sents : List Sent}
    (hframed : ∀ sent ∈ sents, sent.Framed)
    (hdigits : ∀ sent ∈ sents, ∀ text ∈ sent.lengths, text.length ≤ digitLimit)
    (hlimits : ∀ sent ∈ sents, sent.limit? = none)
    (hstays : ∀ sent ∈ sents.dropLast, sent.asksToClose = false) :
    (∀ sent ∈ sents, sent.request?.isSome = true) ∧
      serve routes ended state (sents.flatMap Sent.octets) =
        answers routes state (sents.filterMap Sent.request?) ∧
      ∀ before sent after, sents = before ++ sent :: after →
        Served routes ended state (sents.flatMap Sent.octets)
          (answers routes state (before.filterMap Sent.request?)).1
          (answers routes state (before.filterMap Sent.request?)).2
          (sent.octets ++ after.flatMap Sent.octets) ∧
        ∃ request, sent.request? = some request ∧
          takeRequest ended (sent.octets ++ after.flatMap Sent.octets) =
            .request request (after.flatMap Sent.octets) := by
  have hread : ∀ sent ∈ sents,
      ∃ request, sent.request? = some request ∧ sent.ReadAs ended request := fun sent hsent =>
    (hframed sent hsent).readAs (hdigits sent hsent) (hlimits sent hsent) ended
  refine ⟨fun sent hsent => ?_, ?_, fun before sent after hsplit => ?_⟩
  · obtain ⟨request, hrequest, -⟩ := hread sent hsent
    rw [hrequest]
    rfl
  · -- The last request stands apart: it may ask to close, and nothing follows it.
    rcases List.eq_nil_or_concat sents with rfl | ⟨before, last, rfl⟩
    · exact serveWithin_nil 0 state
    · rw [List.concat_eq_append] at hread hstays ⊢
      rw [List.dropLast_concat] at hstays
      obtain ⟨request, hrequest, hreads⟩ :=
        hread last (List.mem_append_right before (List.mem_singleton_self last))
      have hbefore := served_flatMap routes
        (fun sent hsent => hread sent (List.mem_append_left [last] hsent)) hstays state last.octets
      rw [List.flatMap_append, List.flatMap_singleton, hbefore.serve_eq, serve_last hreads,
        List.filterMap_append, answers_append, List.filterMap_cons_some hrequest,
        List.filterMap_nil]
  · subst hsplit
    -- A request after others is not the last one of these, so none of them asks to close.
    have hstays' : ∀ sent' ∈ before, sent'.asksToClose = false := by
      intro sent' hsent'
      apply hstays
      rw [List.dropLast_append_of_ne_nil (List.cons_ne_nil sent after)]
      exact List.mem_append_left _ hsent'
    have hbefore := served_flatMap routes
      (fun sent' hsent' => hread sent' (List.mem_append_left (sent :: after) hsent')) hstays' state
      (sent.octets ++ after.flatMap Sent.octets)
    obtain ⟨request, hrequest, hreads⟩ :=
      hread sent (List.mem_append_right before List.mem_cons_self)
    rw [List.flatMap_append, List.flatMap_cons]
    exact ⟨hbefore, request, hrequest, hreads _⟩

/-- A statement, a body that is a request itself, and a request that ends the connection. -/
def nestedRequests : List Sent :=
  [.ofTexts "POST /query HTTP/1.1" ["Host: localhost", "content-length : 040"]
      "\x7b\"sql\": \"CREATE TABLE t (a INT)\"\x7d\r\n  \r\n ",
    .ofTexts "POST /query HTTP/1.1" ["CONTENT-LENGTH:27"] "GET /snapshot HTTP/1.1\r\n\r\n ",
    .ofTexts "GET /tables HTTP/1.1" ["Connection: close"] ""]

theorem serve_pipelined_nested :
    nestedRequests.map (·.body.length) = [40, 27, 0] ∧
      (nestedRequests.filterMap Sent.request?).length = 3 ∧
      serve Http.routes true Database.empty (nestedRequests.flatMap Sent.octets) =
        answers Http.routes Database.empty (nestedRequests.filterMap Sent.request?) := by
  have hframed : ∀ sent ∈ nestedRequests, sent.Framed := by decide +kernel
  have hdigits : ∀ sent ∈ nestedRequests, ∀ text ∈ sent.lengths, text.length ≤ digitLimit := by
    decide +kernel
  have hlimits : ∀ sent ∈ nestedRequests, sent.limit? = none := by decide +kernel
  have hstays : ∀ sent ∈ nestedRequests.dropLast, sent.asksToClose = false := by decide +kernel
  exact ⟨by decide +kernel, by decide +kernel,
    (serve_pipelined Http.routes true Database.empty hframed hdigits hlimits hstays).2.1⟩

/-- Zeros, one of them and more. -/
def zeros (more : Nat) : Text := List.replicate (more + 1) (.char '0')

/-- Zeros write the number zero. -/
theorem isDecimal_zeros (more : Nat) : IsDecimal (zeros more) 0 := by
  refine ⟨List.cons_ne_nil _ _, fun c hc => ?_, ?_⟩
  · rw [List.eq_of_mem_replicate hc]
    rfl
  · rw [zeros, List.map_replicate]
    induction more with
    | zero => rfl
    | succ more ih => exact ih

/-- A request that tells the length of its empty body in more digits than are read. -/
def longLength : Sent :=
  .ofTexts "GET /tables HTTP/1.1"
    [Text.ofString "Content-Length" ++ Text.ofString ": " ++ zeros 4300] ""

/-- The length that the long request tells. -/
theorem lengths_longLength : longLength.lengths = [zeros 4300] := by
  have hname : Text.Visible "Content-Length" := by decide
  have hvalue : (zeros 4300).Visible := visible_of_digits (isDecimal_zeros 4300).2.1
  have hline (name value : Text) :
      Text.encode (name ++ ": " ++ value) ++ [13] ++ [newline] =
        Text.encode (Response.headerLine name value) := by
    have hend : [13] ++ [newline] = Text.encode "\r\n" := by decide
    rw [Response.headerLine, List.append_assoc, hend]
    exact List.flatMap_append.symm
  have hlower : Text.lower "Content-Length" = "content-length" := by decide +kernel
  have hfield := field?_headerLine hname hvalue (by decide) (List.cons_ne_nil _ _) (by decide)
  rw [← hline, hlower] at hfield
  have hfields : longLength.fields = [(Text.ofString "content-length", zeros 4300)] :=
    List.filterMap_cons_some hfield
  rw [Sent.lengths, hfields]
  rfl

/-- A request with a body in which lists are nested deeper than they are read. -/
def deepBody : Sent :=
  .ofTexts "GET /tables HTTP/1.1" ["Content-Length: 1000"] (List.replicate 1000 (.char '['))

/-- A length in too many digits is refused although it is the right one, and a body that is nested
too deep ends the connection without a response. -/
theorem serve_unread :
    (longLength.Framed ∧ longLength.limit? = none ∧ longLength.request?.isSome = true ∧
      (serve Http.routes true Database.empty longLength.octets).1 ≠
        (answers Http.routes Database.empty longLength.request?.toList).1) ∧
    deepBody.Framed ∧ deepBody.limit? = some (.tooDeep .array) ∧
      (serve Http.routes true Database.empty deepBody.octets).1 = [] ∧
      ∀ request, (answers Http.routes Database.empty [request]).1 ≠ [] := by
  -- What is read of the long length is known by lemmas only: it is too long to be evaluated.
  have hlined : longLength.Lined := by decide +kernel
  have hframed : longLength.Framed :=
    { hlined with
      target := by decide +kernel
      length := by rw [lengths_longLength]; exact isDecimal_zeros 4300
      size := Nat.zero_le bodyLimit }
  have hlength : bodyLength longLength.headers = .error (400, "Invalid Content-Length header") := by
    rw [Sent.bodyLength_of_lengths lengths_longLength (isDecimal_zeros 4300) (Nat.zero_le _)]
    exact if_neg (by rw [zeros, List.length_replicate]; decide)
  have hrefused : takeRequest true longLength.octets =
      .refused 400 "Invalid Content-Length header" := by
    rw [← List.append_nil longLength.octets,
      Sent.takeRequest_octets { hlined with body := by rw [hlength]; rfl }, hlength]
    rfl
  have hrequest : longLength.request?.isSome = true :=
    (Sent.isSome_request?_iff hlined).mpr ⟨hframed.target, rfl⟩
  have hdeep : deepBody.Framed := by decide +kernel
  refine ⟨⟨hframed, rfl, hrequest, ?_⟩, hdeep, by decide +kernel, by decide +kernel,
    fun _ => List.append_ne_nil_of_left_ne_nil (Response.octets_ne_nil _) _⟩
  rw [serve_eq, hrefused]
  decide +kernel

end RelStore.Http
