import ToolGateway.Tool.Handler

/-!
# Calls that are sent once or twice

What a handler asks of its client can be watched: a watched executor notes every request that it
runs and what came of it, and does nothing else. A call is run once, or once more with another body:
exactly when the API refused a JSON body as a bad request and the body can be corrected
(`handled_once_or_twice`). The result tells of the last run. It is an error when that run failed or
the status is one of an error, so it tells failure from success as long as the API answers with a
status of the one or the other kind (`result_tells_iff`).
-/

namespace ToolGateway

variable {σ : Type}

/-! ### Watching a handler -/

/-- Sends a request with some credentials. -/
abbrev Executor (σ : Type) := Request → Option String → StateM σ (Except CallFault Outcome)

/-- A run of an executor: what was to be sent, and what came of it. -/
structure Execution where
  request : Request
  authorization : Option String
  ended : Except CallFault Outcome

/-- The same executor, which notes each of its runs. -/
def Executor.watched (execute : Executor σ) : Executor (σ × List Execution) :=
  fun r authorization (s, log) =>
    let (ended, s) := execute r authorization s
    (ended, s, log ++ [⟨r, authorization, ended⟩])

theorem Executor.watched_of_ran {execute : Executor σ} {r : Request} {authorization : Option String}
    {s s' : σ} {ended : Except CallFault Outcome} (ran : execute r authorization s = (ended, s'))
    (log : List Execution) : execute.watched r authorization (s, log) =
      (ended, s', log ++ [⟨r, authorization, ended⟩]) := by
  simp only [Executor.watched, ran]

namespace Handler

variable {c : Client} {corrects : Bool} {r again : Request} {o : Outcome} {p : Payload} {w : Json}
  {first last : Execution}

/-- Calls the API by way of an executor. -/
def ofExecutor (execute : Executor σ) (corrects : Bool) : Handler σ :=
  fun op arguments ctx => do
    let r := arguments.toRequest op
    let first ← execute r ctx.authorization
    match first.toOption.bind (again? corrects r) with
    | some again => return result (← execute again ctx.authorization)
    | none => return result first

theorem ofClient_eq_ofExecutor (c : Client) (corrects : Bool) (server : Server σ) :
    ofClient c corrects server = ofExecutor (c.execute server) corrects := rfl

/-- The runs of a call of a client: the result, the state of the API, and the runs in order. -/
def watch (c : Client) (corrects : Bool) (server : Server σ) (op : Operation)
    (arguments : Arguments) (ctx : Context) (s : σ) : ToolResult × σ × List Execution :=
  ofExecutor (Executor.watched (c.execute server)) corrects op arguments ctx (s, [])

/-- What is to be run after a run. -/
def follow? (corrects : Bool) (e : Execution) : Option Request :=
  e.ended.toOption.bind (again? corrects e.request)

section Runs

variable {execute : Executor σ} {op : Operation} {arguments : Arguments} {ctx : Context}
  {s s' s'' : σ} {ended ended' : Except CallFault Outcome}

/-- A call ends with its first run if nothing is to be run after it. -/
theorem ofExecutor_once
    (ran : execute (arguments.toRequest op) ctx.authorization s = (ended, s'))
    (stop : follow? corrects ⟨arguments.toRequest op, ctx.authorization, ended⟩ = none) :
    ofExecutor execute corrects op arguments ctx s = (result ended, s') := by
  change ended.toOption.bind (again? corrects (arguments.toRequest op)) = none at stop
  simp only [ofExecutor, bind, StateT.bind, ran, stop]
  rfl

/-- A call ends with its second run if something is to be run after the first one. -/
theorem ofExecutor_twice
    (ran : execute (arguments.toRequest op) ctx.authorization s = (ended, s'))
    (go : follow? corrects ⟨arguments.toRequest op, ctx.authorization, ended⟩ = some again)
    (ran' : execute again ctx.authorization s' = (ended', s'')) :
    ofExecutor execute corrects op arguments ctx s = (result ended', s'') := by
  change ended.toOption.bind (again? corrects (arguments.toRequest op)) = some again at go
  simp only [ofExecutor, bind, StateT.bind, ran, go, ran']
  rfl

end Runs

/-- A handler runs the request of a call, and at most one that follows from how this ended. The
result is that of the last run, and being watched changes nothing. -/
theorem ofExecutor_watched (execute : Executor σ) (corrects : Bool) (op : Operation)
    (arguments : Arguments) (ctx : Context) (s : σ) :
    ∃ first : Execution, ∃ second : Option Execution,
      first.request = arguments.toRequest op ∧ first.authorization = ctx.authorization ∧
      second.map (fun e => (e.request, e.authorization)) =
        (follow? corrects first).map (·, ctx.authorization) ∧
      (ofExecutor execute corrects op arguments ctx s).1 = result (second.getD first).ended ∧
      ofExecutor (Executor.watched execute) corrects op arguments ctx (s, []) =
        ((ofExecutor execute corrects op arguments ctx s).1,
          (ofExecutor execute corrects op arguments ctx s).2, first :: second.toList) := by
  obtain ⟨ended, s', ran⟩ :
      ∃ ended s', execute (arguments.toRequest op) ctx.authorization s = (ended, s') :=
    ⟨_, _, rfl⟩
  have noted := Executor.watched_of_ran ran []
  refine ⟨⟨arguments.toRequest op, ctx.authorization, ended⟩, ?_⟩
  cases next : follow? corrects ⟨arguments.toRequest op, ctx.authorization, ended⟩ with
  | none =>
    refine ⟨none, rfl, rfl, rfl, ?_, ?_⟩
    · rw [ofExecutor_once ran next]
      rfl
    · rw [ofExecutor_once ran next, ofExecutor_once noted next]
      rfl
  | some again =>
    obtain ⟨ended', s'', ran'⟩ :
        ∃ ended' s'', execute again ctx.authorization s' = (ended', s'') :=
      ⟨_, _, rfl⟩
    have noted' := Executor.watched_of_ran ran'
      [⟨arguments.toRequest op, ctx.authorization, ended⟩]
    refine ⟨some ⟨again, ctx.authorization, ended'⟩, rfl, rfl, rfl, ?_, ?_⟩
    · rw [ofExecutor_twice ran next ran']
      rfl
    · rw [ofExecutor_twice ran next ran', ofExecutor_twice noted next noted']
      rfl

/-! ### Running a request again -/

/-- The API refused a JSON body as a bad request, and the body can be corrected to another one. -/
structure Correctable (corrects : Bool) (e : Execution) (p : Payload) (w : Json) : Prop where
  enabled : corrects = true
  refused : ∃ o, e.ended = .ok o ∧ o.status = 400
  payload : e.request.payload = some p
  json : MediaType.offersJson p.contentType = true
  corrected : Correction.correct? p.content = some w

theorem again?_eq_some_iff : again? corrects r o = some again ↔
    corrects = true ∧ o.status = 400 ∧ ∃ p w, r.payload = some p ∧
      MediaType.offersJson p.contentType = true ∧ Correction.correct? p.content = some w ∧
      again = { r with payload := some { p with content := w } } := by
  simp only [again?, Option.bind_eq_bind, Option.pure_def, Option.bind_none,
    Option.ite_none_left_eq_some, Option.bind_eq_some_iff, Option.some.injEq, Bool.or_eq_true,
    Bool.not_eq_true', bne_iff_ne, not_or, Bool.not_eq_false, ne_eq, Decidable.not_not]
  constructor
  · rintro ⟨⟨enabled, status⟩, p, payload, json, w, corrected, rfl⟩
    exact ⟨enabled, status, p, w, payload, json, corrected, rfl⟩
  · rintro ⟨enabled, status, p, w, payload, json, corrected, rfl⟩
    exact ⟨⟨enabled, status⟩, p, payload, json, w, corrected, rfl⟩

theorem follow?_eq_some_iff : follow? corrects first = some again ↔
    ∃ p w, Correctable corrects first p w ∧
      again = { first.request with payload := some { p with content := w } } := by
  rw [follow?, Option.bind_eq_some_iff]
  constructor
  · rintro ⟨o, answered, h⟩
    obtain ⟨enabled, status, p, w, payload, json, corrected, rfl⟩ := again?_eq_some_iff.mp h
    cases ended : first.ended with
    | error e =>
      rw [ended] at answered
      cases answered
    | ok o' =>
      rw [ended] at answered
      cases answered
      exact ⟨p, w, ⟨enabled, ⟨o, ended, status⟩, payload, json, corrected⟩, rfl⟩
  · rintro ⟨p, w, ⟨enabled, ⟨o, ended, status⟩, payload, json, corrected⟩, rfl⟩
    refine ⟨o, by rw [ended]; rfl, ?_⟩
    exact again?_eq_some_iff.mpr ⟨enabled, status, p, w, payload, json, corrected, rfl⟩

/-- The message with another body is the same but for the body. -/
theorem outgoing_withContent (c : Client) (h : r.payload = some p) (w : Json)
    (authorization : Option String) :
    c.outgoing { r with payload := some { p with content := w } } authorization =
      (c.outgoing r authorization).map fun m => { m with body := some w.render } := by
  have headers : c.headers { r with payload := some { p with content := w } } authorization =
      c.headers r authorization := by
    unfold Client.headers
    rw [h]
    rfl
  have target : Request.target { r with payload := some { p with content := w } } c.base =
      r.target c.base := rfl
  rw [Client.outgoing, Client.outgoing, headers, target]
  cases r.target c.base <;> rfl

/-- A run repeats another one with a corrected body. All else in the message is as it was: the
method, the URL, and the headers with the cookies and the credentials. -/
structure Repeats (c : Client) (first last : Execution) (p : Payload) (w : Json) : Prop where
  request : last.request = { first.request with payload := some { p with content := w } }
  authorization : last.authorization = first.authorization
  message : c.outgoing last.request last.authorization =
    (c.outgoing first.request first.authorization).map fun m => { m with body := some w.render }

/-- A call runs its request, and runs it once more exactly when the API refused it as a bad request
and its body can be corrected. The second request is the first one with the corrected body, and the
result tells of the last run, however it ended. -/
theorem handled_once_or_twice (c : Client) (corrects : Bool) (server : Server σ) (op : Operation)
    (arguments : Arguments) (ctx : Context) (s : σ) :
    ∃ first last : Execution, ∃ log,
      watch c corrects server op arguments ctx s =
        ((ofClient c corrects server op arguments ctx s).1,
          (ofClient c corrects server op arguments ctx s).2, log) ∧
      first.request = arguments.toRequest op ∧ first.authorization = ctx.authorization ∧
      (ofClient c corrects server op arguments ctx s).1 = result last.ended ∧
      ((log = [first] ∧ last = first ∧ ∀ p w, ¬ Correctable corrects first p w) ∨
        (log = [first, last] ∧
          ∃ p w, Correctable corrects first p w ∧ Repeats c first last p w)) := by
  obtain ⟨first, second, request, authorization, follows, ended, watched⟩ :=
    ofExecutor_watched (c.execute server) corrects op arguments ctx s
  refine ⟨first, second.getD first, first :: second.toList, watched, request, authorization, ended,
    ?_⟩
  cases second with
  | none =>
    have stop : follow? corrects first = none := (Option.map_eq_none_iff.mp follows.symm)
    refine Or.inl ⟨rfl, rfl, fun p w h => ?_⟩
    have go := follow?_eq_some_iff.mpr ⟨p, w, h, rfl⟩
    rw [stop] at go
    cases go
  | some last =>
    obtain ⟨again, go, same⟩ := Option.map_eq_some_iff.mp follows.symm
    obtain ⟨rfl, credentials⟩ := Prod.mk.inj same
    obtain ⟨p, w, correctable, request'⟩ := follow?_eq_some_iff.mp go
    have authorization' : last.authorization = first.authorization :=
      credentials.symm.trans authorization.symm
    refine Or.inr ⟨rfl, p, w, correctable, request', authorization', ?_⟩
    rw [Option.getD_some, request', authorization']
    exact outgoing_withContent c correctable.payload w first.authorization

/-- A client of an API at one host. -/
def shop : Client := ⟨(Url.parse "http://shop.example").toOption.getD default, none, none⟩

def items (method : String) : Operation := ⟨"/items", method, .null, [], ⟨.null⟩⟩

def caller : Context := ⟨none, none, none, "items", none⟩

/-- An API that answers with one status after the other, and with the last one from then on. -/
def answering (last : Nat) : Server (List Nat) := fun _ s =>
  (some ⟨s.headD last, none, none, [], true⟩, s.tail)

/-- An item that was written as a text. -/
def quoted : Arguments :=
  { Arguments.none with payload := some ⟨"application/json", .object [("item", .str "[1]")]⟩ }

example : (watch shop true (answering 201) (items "POST") quoted caller [400]).2.2.map
    (·.request.payload.map (·.content.render)) =
      [some "\x7b\"item\":\"[1]\"\x7d", some "\x7b\"item\":[1]\x7d"] := by
  decide +kernel

/-! ### What the result tells -/

def IsSuccess (status : Nat) : Prop := 200 ≤ status ∧ status ≤ 299

/-- Whether the status says that the request or the server is at fault. -/
def IsFault (status : Nat) : Prop := 400 ≤ status ∧ status ≤ 599

/-- A result tells how a run ended, where some statuses are refusals: it is an error if the run
failed or was refused. The text of an answer is its body, and a few words if an answer that is no
refusal has none. -/
structure Tells (refuses : Nat → Prop) (ended : Except CallFault Outcome) (result : ToolResult) :
    Prop where
  error : result.isError = true ↔
    (∃ fault, ended = .error fault) ∨ ∃ o, ended = .ok o ∧ refuses o.status
  refused : ∀ o, ended = .ok o → refuses o.status → result.texts = [o.body]
  accepted : ∀ o, ended = .ok o → ¬ refuses o.status →
    result.texts = [if o.body = "" then defaultSuccess else o.body]

theorem isError_iff : o.isError = true ↔ IsFault o.status := by
  simp [Outcome.isError, IsFault]
  omega

/-- The statuses of an error are the refusals. -/
theorem tells_result (ended : Except CallFault Outcome) : Tells IsFault ended (result ended) := by
  cases ended with
  | error fault =>
    refine ⟨⟨fun _ => Or.inl ⟨fault, rfl⟩, fun _ => rfl⟩, ?_, ?_⟩
    · intro o answered
      cases answered
    · intro o answered
      cases answered
  | ok o =>
    by_cases fault : IsFault o.status
    · have error : result (.ok o) = .failure o.body := if_pos (isError_iff.mpr fault)
      rw [error]
      refine ⟨⟨fun _ => Or.inr ⟨o, rfl, fault⟩, fun _ => rfl⟩, ?_, ?_⟩
      · intro o' answered _
        cases answered
        rfl
      · intro o' answered other
        cases answered
        exact absurd fault other
    · have fine : result (.ok o) =
          .success (if o.body.isEmpty then defaultSuccess else o.body) :=
        if_neg fun error => fault (isError_iff.mp error)
      rw [fine]
      refine ⟨⟨?_, ?_⟩, ?_, ?_⟩
      · intro error
        cases error
      · rintro (⟨_, failed⟩ | ⟨o', answered, other⟩)
        · cases failed
        · cases answered
          exact absurd other fault
      · intro o' answered other
        cases answered
        exact absurd other fault
      · intro o' answered _
        cases answered
        simp [ToolResult.success]

/-- What a result tells depends on the status that was answered. -/
theorem Tells.congr {refuses refuses' : Nat → Prop} {ended : Except CallFault Outcome}
    {result : ToolResult} (h : Tells refuses ended result)
    (same : ∀ o, ended = .ok o → (refuses o.status ↔ refuses' o.status)) :
    Tells refuses' ended result where
  error := by
    rw [h.error]
    refine or_congr_right (exists_congr fun o => and_congr_right fun answered => same o answered)
  refused o answered other := h.refused o answered ((same o answered).mpr other)
  accepted o answered other :=
    h.accepted o answered fun refused => other ((same o answered).mp refused)

/-- Whether a result is an error determines which answer is a refusal. -/
theorem Tells.iff {refuses refuses' : Nat → Prop} {ended : Except CallFault Outcome}
    {result : ToolResult} (h : Tells refuses ended result) :
    Tells refuses' ended result ↔ ∀ o, ended = .ok o → (refuses o.status ↔ refuses' o.status) := by
  refine ⟨fun h' o answered => ?_, h.congr⟩
  have same := h.error.symm.trans h'.error
  rw [answered] at same
  simpa using same

/-- The result of a call tells how its last run ended, with the statuses from 400 to 599 as refusals.
With every status but those from 200 to 299 as a refusal it tells that exactly when the API answered
the last run with one of the former or one of the latter, or the run failed. -/
theorem result_tells_iff (c : Client) (corrects : Bool) (server : Server σ) (op : Operation)
    (arguments : Arguments) (ctx : Context) (s : σ) :
    ∃ last, (watch c corrects server op arguments ctx s).2.2.getLast? = some last ∧
      Tells IsFault last.ended (ofClient c corrects server op arguments ctx s).1 ∧
      (Tells (¬ IsSuccess ·) last.ended (ofClient c corrects server op arguments ctx s).1 ↔
        ∀ o, last.ended = .ok o → IsSuccess o.status ∨ IsFault o.status) := by
  obtain ⟨first, second, -, -, -, ended, watched⟩ :=
    ofExecutor_watched (c.execute server) corrects op arguments ctx s
  have last : (watch c corrects server op arguments ctx s).2.2.getLast? =
      some (second.getD first) := by
    rw [watch, watched]
    cases second <;> rfl
  have tells : Tells IsFault (second.getD first).ended
      (ofClient c corrects server op arguments ctx s).1 := by
    rw [ofClient_eq_ofExecutor, ended]
    exact tells_result _
  refine ⟨second.getD first, last, tells, tells.iff.trans ?_⟩
  refine forall₂_congr fun o _ => ?_
  unfold IsFault IsSuccess
  omega

/-- An answer that says that nothing has changed is neither a success nor an error, and the result
tells of a success. -/
theorem unmodified_is_no_error : ∃ last,
    (watch shop true (answering 304) (items "GET") .none caller []).2.2 = [last] ∧
      last.ended.toOption = some ⟨304, none, ""⟩ ∧
      (ofClient shop true (answering 304) (items "GET") .none caller []).1 =
        .success defaultSuccess ∧
      ¬ Tells (¬ IsSuccess ·) last.ended
        (ofClient shop true (answering 304) (items "GET") .none caller []).1 := by
  have text : (ofClient shop true (answering 304) (items "GET") .none caller []).1 =
      .success defaultSuccess := by decide +kernel
  have log : (watch shop true (answering 304) (items "GET") .none caller []).2.2.map
      (·.ended.toOption) = [some ⟨304, none, ""⟩] := by decide +kernel
  obtain ⟨last, one, answered⟩ := List.map_eq_singleton_iff.mp log
  refine ⟨last, one, answered, text, fun tells => ?_⟩
  cases ended : last.ended with
  | error fault =>
    rw [ended] at answered
    cases answered
  | ok o =>
    rw [ended] at answered
    cases answered
    have error := tells.error.mpr (Or.inr ⟨_, ended, by simp [IsSuccess]⟩)
    rw [text] at error
    cases error

end Handler

end ToolGateway
