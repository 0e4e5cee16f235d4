import RelStore.Http.Service
import RelStore.Proofs.Http.Framing

/-!
# Which requests are answered

A request that is there in full gets a response just when its target can be read and its body goes
past no limit of JSON (`Sent.Readable`), unless the headers tell no length that the server takes,
which is answered without a look at the body. The response to a bad request has a status from 400 to
499; only where the handler of the request fails, the status is 500 (`status_of_bad`). A request
that cannot be read ends the connection without a response (`Served.answered`).
-/

namespace RelStore.Http

/-! ## Requests that are there in full -/

namespace Sent

/-- The target can be read, and so can the body if the server comes to read it. -/
def Readable (sent : Sent) : Prop :=
  sent.target?.isSome = true ∧
    ((bodyLength sent.headers).toOption.isSome = true → sent.limit? = none)

instance (sent : Sent) : Decidable sent.Readable :=
  inferInstanceAs (Decidable (sent.target?.isSome = true ∧
    ((bodyLength sent.headers).toOption.isSome = true → sent.limit? = none)))

/-- The response to a request that is there in full, and the state after it, if there is one. -/
def answer? {σ : Type} (sent : Sent) (routes : List (Route σ)) (state : σ) :
    Option (Response × σ) :=
  if sent.target?.isNone then none
  else
    match bodyLength sent.headers with
    | .error (status, message) => some (.ofError status message, state)
    | .ok _ => sent.request?.map (handle routes · state)

variable {σ : Type} {sent : Sent}

/-- There is a response to a request just when it can be read. -/
theorem isSome_answer?_iff (h : sent.Lined) (routes : List (Route σ)) (state : σ) :
    (sent.answer? routes state).isSome = true ↔ sent.Readable := by
  have hrequest := isSome_request?_iff h
  unfold answer? Readable
  cases htarget : sent.target? with
  | none => exact ⟨nofun, fun hread => nomatch hread.1⟩
  | some target =>
    rw [htarget] at hrequest
    cases bodyLength sent.headers with
    | error refusal =>
      -- The headers are refused before the body is looked at.
      exact ⟨fun _ => ⟨rfl, nofun⟩, fun _ => rfl⟩
    | ok length =>
      have hsome : (sent.request?.map (handle routes · state)).isSome = sent.request?.isSome :=
        Option.isSome_map
      exact ⟨fun hread => ⟨rfl, fun _ => (hrequest.mp (hsome ▸ hread)).2⟩,
        fun hread => hsome.trans (hrequest.mpr ⟨rfl, hread.2 rfl⟩)⟩

/-- A request that is there in full is answered, or nothing more is. -/
theorem serve_octets (h : sent.Complete) (routes : List (Route σ)) (ended : Bool) (state : σ)
    (rest : Text.Octets) :
    match sent.answer? routes state with
    | none => serve routes ended state (sent.octets ++ rest) = ([], state)
    | some (response, _) => ∃ more last,
        serve routes ended state (sent.octets ++ rest) = (response.octets ++ more, last) := by
  rw [serve_eq, takeRequest_octets h, answer?]
  by_cases htarget : sent.target?.isNone = true
  · rw [if_pos htarget, if_pos htarget]
  · rw [if_neg htarget, if_neg htarget]
    cases bodyLength sent.headers with
    | error refusal => exact ⟨[], state, by rw [List.append_nil]⟩
    | ok length =>
      cases sent.request? with
      | none => rfl
      | some request =>
        dsimp only [Option.map_some, Option.elim_some]
        split
        · exact ⟨[], _, by rw [List.append_nil]⟩
        · exact ⟨_, _, rfl⟩

end Sent

/-! ## Statuses -/

/-- A request is one for a method and a path. -/
def Request.IsFor (request : Request) (method path : Text) : Prop :=
  request.method = method ∧ request.path = path

/-- The response of a handler, and the state after it. -/
def outcome {σ : Type} : Except Text Reply × σ → Response × σ
  | (.ok reply, state) => (reply.toResponse, state)
  | (.error message, state) => (.ofError 500 ("Internal error: " ++ message), state)

/-- The route of a method and a path handles the requests for them. -/
theorem handle_of_route {σ : Type} {routes : List (Route σ)} {route : Route σ} {request : Request}
    {method path : Text} (hfor : request.IsFor method path)
    (hroute : (routes.find? fun route => route.method == method && route.path == path) = some route)
    (state : σ) : handle routes request state = outcome (route.answer request state) := by
  obtain ⟨rfl, rfl⟩ := hfor
  rw [handle, hroute]
  rfl

variable {db : Database} {request : Request}

/-- The response to a statement. -/
theorem handle_query (h : request.IsFor "POST" "/query") (db : Database) :
    handle routes request db = outcome (answerQuery request db) := by
  have hroute : routes.find? (fun route =>
      route.method == ("POST" : Text) && route.path == ("/query" : Text)) =
      some ⟨"POST", "/query", answerQuery⟩ := rfl
  exact handle_of_route h hroute db

/-- The response to a request for the description of a table. -/
theorem handle_tableInfo (h : request.IsFor "GET" "/tables/info") (db : Database) :
    handle routes request db = outcome (answerTableInfo request db) := by
  have hroute : routes.find? (fun route =>
      route.method == ("GET" : Text) && route.path == ("/tables/info" : Text)) =
      some ⟨"GET", "/tables/info", answerTableInfo⟩ := rfl
  exact handle_of_route h hroute db

/-- A value that can be written is sent with the status that it is given. -/
theorem status_jsonReply {payload : Json} (h : payload.isWritable = true) (status : Int)
    (db : Database) : (outcome (jsonReply status payload, db)).1.status = status := by
  rw [jsonReply, if_pos h]
  rfl

/-- A value that cannot be written makes the handler fail. -/
theorem status_jsonReply_of_unwritable {payload : Json} (h : payload.isWritable = false)
    (status : Int) (db : Database) : (outcome (jsonReply status payload, db)).1.status = 500 := by
  rw [jsonReply, if_neg (ne_true_of_eq_false h)]
  rfl

/-- A status says that a request is bad. -/
def IsRefusal (status : Int) : Prop := 400 ≤ status ∧ status < 500

instance (status : Int) : Decidable (IsRefusal status) :=
  inferInstanceAs (Decidable (400 ≤ status ∧ status < 500))

/-- A request that cannot be fulfilled. -/
inductive Request.Bad (db : Database) (request : Request) : Prop where
  /-- Nothing is at the path, or not for the method. -/
  | unrouted (h : ∀ route ∈ routes, ¬request.IsFor route.method route.path)
  /-- The body that should hold a statement is no JSON. -/
  | malformed {message : Text} (hfor : request.IsFor "POST" "/query")
      (h : request.jsonError? = some message)
  /-- There is no statement, or a blank one. -/
  | noStatement (hfor : request.IsFor "POST" "/query")
      (h : ∀ sql, request.field? "sql" = some (.string sql) → sql.strip = [])
  /-- The statement fails. -/
  | failing {sql : Text} (hfor : request.IsFor "POST" "/query")
      (hsql : request.field? "sql" = some (.string sql)) (h : (db.execute sql).1.success = false)
  /-- No table is named. -/
  | unnamed (hfor : request.IsFor "GET" "/tables/info")
      (h : ∀ name, request.field? "name" = some name → name.isTruthy = false)
  /-- What is named is no table. -/
  | unknown {name : Json} (hfor : request.IsFor "GET" "/tables/info")
      (hname : request.field? "name" = some name)
      (h : ∀ text, name = .string text → db.table? text = none)

/-- Whether a value holds others, so that it cannot be looked up as a name. -/
def isContainer : Json → Bool
  | .array _ | .object _ => true
  | .null | .bool _ | .int _ | .float _ | .string _ => false

/-- A request of which the handler fails. -/
inductive Request.Fails (db : Database) (request : Request) : Prop where
  /-- A list or an object names the table, and it is not empty. -/
  | container {name : Json} (hfor : request.IsFor "GET" "/tables/info")
      (hname : request.field? "name" = some name) (hgiven : name.isTruthy = true)
      (h : isContainer name = true)
  /-- The result of the statement holds an integer of too many digits. -/
  | unwritable {sql : Text} (hfor : request.IsFor "POST" "/query")
      (hbody : request.jsonError? = none) (hsql : request.field? "sql" = some (.string sql))
      (hgiven : sql.strip ≠ []) (h : (db.execute sql).1.toJson.isWritable = false)

/-- A statement that is given is carried out, and the response is its result. -/
theorem handle_statement {sql : Text} (hfor : request.IsFor "POST" "/query")
    (hbody : request.jsonError? = none) (hsql : request.field? "sql" = some (.string sql))
    (hgiven : sql.strip ≠ []) (db : Database) :
    handle routes request db =
      outcome (jsonReply (if (db.execute sql).1.success then 200 else 400)
        (db.execute sql).1.toJson, (db.execute sql).2) := by
  rw [handle_query hfor, answerQuery, hbody, hsql]
  dsimp only
  rw [if_neg (mt List.isEmpty_iff.mp hgiven)]

/-- The responses of handlers that fail have the status 500. -/
theorem status_of_fails (h : request.Fails db) : (handle routes request db).1.status = 500 := by
  cases h with
  | @container name hfor hname hgiven h =>
    rw [handle_tableInfo hfor, answerTableInfo, hname, Option.getD_some]
    unfold describeTable
    rw [hgiven]
    cases name with
    | array items => rfl
    | object members => rfl
    | null | bool b | int n | float x | string text => cases h
  | unwritable hfor hbody hsql hgiven h =>
    rw [handle_statement hfor hbody hsql hgiven]
    exact status_jsonReply_of_unwritable h _ _

/-- A request for a path or a method that has no route is refused. -/
theorem isRefusal_of_unrouted (h : ∀ route ∈ routes, ¬request.IsFor route.method route.path) :
    IsRefusal (handle routes request db).1.status := by
  have hnone : (routes.find? fun route =>
      route.method == request.method && route.path == request.path) = none := by
    rw [List.find?_eq_none]
    intro route hroute hfor
    rw [Bool.and_eq_true, beq_iff_eq, beq_iff_eq] at hfor
    exact h route hroute ⟨hfor.1.symm, hfor.2.symm⟩
  rw [handle, hnone]
  dsimp only
  split
  · exact (by decide : IsRefusal 405)
  · exact (by decide : IsRefusal 404)

/-- A statement that fails is refused, if its result can be written. -/
theorem isRefusal_of_failing {sql : Text} (hfor : request.IsFor "POST" "/query")
    (hbody : request.jsonError? = none) (hsql : request.field? "sql" = some (.string sql))
    (hgiven : sql.strip ≠ []) (h : (db.execute sql).1.success = false)
    (hfails : ¬request.Fails db) : IsRefusal (handle routes request db).1.status := by
  have hwritable : (db.execute sql).1.toJson.isWritable = true := by
    by_contra hnot
    exact hfails (.unwritable hfor hbody hsql hgiven (Bool.eq_false_iff.mpr hnot))
  rw [handle_statement hfor hbody hsql hgiven, status_jsonReply hwritable, h]
  exact (by decide : IsRefusal 400)

/-- A description of what is no table is refused. -/
theorem isRefusal_of_unknown {name : Json} (hfor : request.IsFor "GET" "/tables/info")
    (hname : request.field? "name" = some name)
    (h : ∀ text, name = .string text → db.table? text = none) (hfails : ¬request.Fails db) :
    IsRefusal (handle routes request db).1.status := by
  rw [handle_tableInfo hfor, answerTableInfo, hname, Option.getD_some]
  unfold describeTable
  cases hgiven : name.isTruthy with
  | false => exact (by decide : IsRefusal 400)
  | true =>
    cases name with
    | string text =>
      dsimp only
      rw [h text rfl]
      exact (by decide : IsRefusal 404)
    -- A list or an object fails as it is looked up, before it is found to be no table.
    | array items => exact absurd (.container hfor hname hgiven rfl) hfails
    | object members => exact absurd (.container hfor hname hgiven rfl) hfails
    | null | bool b | int n | float x => exact (by decide : IsRefusal 404)

/-- Bad requests whose handlers do not fail are refused. -/
theorem status_of_bad (h : request.Bad db) (hfails : ¬request.Fails db) :
    IsRefusal (handle routes request db).1.status := by
  have hmissing : IsRefusal 400 := by decide
  cases h with
  | unrouted h => exact isRefusal_of_unrouted h
  | malformed hfor h =>
    rw [handle_query hfor, answerQuery, h]
    exact hmissing
  | noStatement hfor h =>
    rw [handle_query hfor, answerQuery]
    split
    · exact hmissing
    · split
      · next sql hsql =>
        rw [if_pos (List.isEmpty_iff.mpr (h sql hsql))]
        exact hmissing
      · exact hmissing
  | @failing sql hfor hsql h =>
    -- The statement is carried out only if the body is JSON and the statement is not blank.
    cases hbody : request.jsonError? with
    | some message =>
      rw [handle_query hfor, answerQuery, hbody]
      exact hmissing
    | none =>
      by_cases hblank : sql.strip = []
      · rw [handle_query hfor, answerQuery, hbody, hsql]
        dsimp only
        rw [if_pos (List.isEmpty_iff.mpr hblank)]
        exact hmissing
      · exact isRefusal_of_failing hfor hbody hsql hblank h hfails
  | unnamed hfor h =>
    rw [handle_tableInfo hfor, answerTableInfo]
    cases hname : request.field? "name" with
    | none => exact hmissing
    | some name =>
      unfold describeTable
      rw [Option.getD_some, h name hname]
      exact hmissing
  | unknown hfor hname h => exact isRefusal_of_unknown hfor hname h hfails

/-- Headers that tell no length that the server takes are refused. -/
theorem isRefusal_of_bodyLength {headers : Mapping Text Text} {status : Int} {message : Text}
    (h : bodyLength headers = .error (status, message)) : IsRefusal status := by
  unfold bodyLength at h
  split at h
  · cases h
  · split at h
    · cases h
      decide
    · split at h
      · cases h
        decide
      · cases h

/-! ## Requests to the service -/

/-- A request is bad by its headers or by what the server makes of it. -/
def Sent.Bad (sent : Sent) (db : Database) : Prop :=
  (bodyLength sent.headers).toOption = none ∨
    ∃ request, sent.request? = some request ∧ request.Bad db

/-- The handler of a request fails. -/
def Sent.Fails (sent : Sent) (db : Database) : Prop :=
  (bodyLength sent.headers).toOption.isSome = true ∧
    ∃ request, sent.request? = some request ∧ request.Fails db

/-- The status of a response to a bad request. -/
theorem Sent.status_of_answer? {sent : Sent} {db next : Database} {response : Response}
    (h : sent.answer? routes db = some (response, next)) :
    (sent.Fails db → response.status = 500) ∧
      (sent.Bad db → ¬sent.Fails db → IsRefusal response.status) := by
  unfold answer? at h
  split at h
  · cases h
  · cases hlength : bodyLength sent.headers with
    | error refusal =>
      rw [hlength] at h
      cases h
      refine ⟨fun hfails => ?_, fun _ _ => isRefusal_of_bodyLength hlength⟩
      rw [Sent.Fails, hlength] at hfails
      exact nomatch hfails.1
    | ok length =>
      rw [hlength] at h
      obtain ⟨request, hrequest, hhandle⟩ := Option.map_eq_some_iff.mp h
      have hresponse : response = (handle routes request db).1 := by rw [hhandle]
      rw [hresponse]
      refine ⟨fun hfails => ?_, fun hbad hnot => ?_⟩
      · obtain ⟨-, request', hrequest', hfails⟩ := hfails
        obtain rfl := Option.some.inj (hrequest.symm.trans hrequest')
        exact status_of_fails hfails
      · rcases hbad with hnone | ⟨request', hrequest', hbad⟩
        · rw [hlength] at hnone
          cases hnone
        · obtain rfl := Option.some.inj (hrequest.symm.trans hrequest')
          refine status_of_bad hbad fun hfails => hnot ⟨?_, request, hrequest, hfails⟩
          rw [hlength]
          rfl

/-- After requests that have been served, one that is there in full is answered if it can be read,
with a refusal if it is bad and its handler does not fail. If it cannot be read, nothing more is
written. -/
theorem Served.answered {ended : Bool} {db last : Database} {input written rest : Text.Octets}
    {sent : Sent} (h : Served routes ended db input written last (sent.octets ++ rest))
    (hcomplete : sent.Complete) :
    (sent.Readable →
      ∃ response next, sent.answer? routes last = some (response, next) ∧
        (∃ more final,
          serve routes ended db input = (written ++ (response.octets ++ more), final)) ∧
        (sent.Fails last → response.status = 500) ∧
        (sent.Bad last → ¬sent.Fails last → IsRefusal response.status)) ∧
    (¬sent.Readable → serve routes ended db input = (written, last)) := by
  have hanswer := sent.isSome_answer?_iff hcomplete.toLined routes last
  have hserve := Sent.serve_octets hcomplete routes ended last rest
  constructor
  · intro hread
    obtain ⟨⟨response, next⟩, hsome⟩ := Option.isSome_iff_exists.mp (hanswer.mpr hread)
    rw [hsome] at hserve
    obtain ⟨more, final, hserve⟩ := hserve
    refine ⟨response, next, hsome, ⟨more, final, ?_⟩, Sent.status_of_answer? hsome⟩
    rw [h.serve_eq, hserve]
  · intro hread
    have hnone : sent.answer? routes last = none :=
      Option.not_isSome_iff_eq_none.mp (mt hanswer.mp hread)
    rw [hnone] at hserve
    rw [h.serve_eq, hserve, List.append_nil]

/-- A request for the tables. -/
def askTables : Sent := .ofTexts "GET /tables HTTP/1.1" ["Host: localhost"] ""

/-- A request with a bracket in its target that is not closed. -/
def openBracket : Sent := .ofTexts "GET http://[::1/x HTTP/1.1" [] ""

/-- A request whose headers tell no length that the server takes. -/
def wordLength : Sent := .ofTexts "POST /query HTTP/1.1" ["Content-Length: ten"] ""

theorem Served.answered_brackets :
    (∃ request, askTables.request? = some request ∧
      serve routes true Database.empty (askTables.octets ++ (openBracket.octets ++ [])) =
        ((handle routes request Database.empty).1.octets ++ [],
          (handle routes request Database.empty).2)) ∧
    ∃ response more final, IsRefusal response.status ∧
      serve routes true Database.empty (wordLength.octets ++ []) =
        ([] ++ (Response.octets response ++ more), final) := by
  have htables : askTables.Complete := by decide +kernel
  have hbracket : openBracket.Complete := by decide +kernel
  have hword : wordLength.Complete := by decide +kernel
  constructor
  · have hsome : askTables.request?.isSome = true := by decide +kernel
    obtain ⟨request, hrequest⟩ := Option.isSome_iff_exists.mp hsome
    have hread := htables.readAs (by decide +kernel) hrequest true (openBracket.octets ++ [])
    have hstays : asksToClose request = false := by
      rw [Sent.asksToClose_of_request? hrequest]
      decide +kernel
    exact ⟨request, hrequest, (Served.answered (.next hread hstays (.start _ _)) hbracket).2
      (by decide +kernel)⟩
  · have hlength : (bodyLength wordLength.headers).toOption = none := by decide +kernel
    have hstart : Served routes true Database.empty (wordLength.octets ++ []) [] Database.empty
        (wordLength.octets ++ []) := .start _ _
    obtain ⟨response, next, -, ⟨more, final, hserve⟩, -, hrefusal⟩ :=
      (Served.answered hstart hword).1 (by decide +kernel)
    have hfails : ¬wordLength.Fails Database.empty := by
      rintro ⟨hread, -⟩
      rw [hlength] at hread
      cases hread
    exact ⟨response, more, final, hrefusal (.inl hlength) hfails, hserve⟩

end RelStore.Http
