import ToolGateway.Gateway

/-!
# Times

Three times are computed from settings: how long an exchange may take when the description is
fetched and when the API is called, and how long a reload cycle waits before it tries again. Both
timeouts are sums of two settings that nothing bounds, so settings can pass the check and still be
useless: no client can be made when the sum does not fit in 64 bits. The waits always fit. A cycle
waits after each of its attempts but the last one, and a wait is twice as long as the one before
until it cannot grow any more (`times_spec`).
-/

namespace ToolGateway

/-! ### Timeouts -/

theorem ClientSettings.timeout?_eq_none_iff {s : ClientSettings} :
    s.timeout? = none ↔ ¬s.connectTimeout + s.readTimeout < endOfTime := by
  unfold timeout?
  dsimp only
  split <;> simp [*]

theorem Gateway.checkClient_eq_tooLong_iff {s : ClientSettings} :
    checkClient s = .error .tooLong ↔
      ¬s.connectTimeout + s.readTimeout < ClientSettings.endOfTime := by
  rw [← ClientSettings.timeout?_eq_none_iff, checkClient]
  cases s.timeout? with
  | none => simp
  | some _ =>
    rw [if_neg (by simp)]
    split <;> simp

theorem Client.build_eq_tooLong_iff {s : ClientSettings} {base : Url} :
    build s base = .error .tooLong ↔
      ¬s.connectTimeout + s.readTimeout < ClientSettings.endOfTime := by
  rw [← ClientSettings.timeout?_eq_none_iff, build]
  cases s.timeout? <;> simp

/-! ### Waits -/

namespace Reload

/-- What a cycle of some attempts comes to, whatever the tools are like at each of its steps. -/
inductive Comes (attempts : Nat) : Cycle → Prop
  | start (s : Shared) : Comes attempts (start attempts s).1
  | step {c : Cycle} (e : Event) (s : Shared) (before : Comes attempts c) :
      Comes attempts (step e c s).1

/-- A cycle counts its attempts, and it waits only when there is an attempt to come. -/
def Cycle.Counts (attempts : Nat) : Cycle → Prop
  | .fetching plan n => plan.attempts = max 1 attempts ∧ 1 ≤ n ∧ n ≤ plan.attempts
  | .waiting plan n seconds =>
    plan.attempts = max 1 attempts ∧ 1 ≤ n ∧ n < plan.attempts ∧ seconds = delay usualWait n
  | .notifying _ | .over _ => True

theorem Cycle.Counts.onFetched {attempts n : Nat} {plan : Plan}
    (h : Counts attempts (.fetching plan n)) (w : World) (s : Shared) :
    Counts attempts (onFetched w plan n s).1 := by
  obtain ⟨total, first, last⟩ := h
  unfold Reload.onFetched
  split
  · split
    · next more => exact ⟨total, first, more, rfl⟩
    · trivial
  · trivial
  · trivial

theorem Cycle.Counts.step {attempts : Nat} {c : Cycle} (h : Counts attempts c) (e : Event)
    (s : Shared) : Counts attempts (step e c s).1 := by
  cases c with
  | fetching plan n =>
    cases e with
    | fetched w => exact h.onFetched w s
    | _ => exact h
  | notifying outcome => cases e <;> trivial
  | waiting plan n seconds =>
    cases e with
    | slept =>
      obtain ⟨total, first, more, -⟩ := h
      exact ⟨total, Nat.le_succ_of_le first, more⟩
    | cancelled => trivial
    | _ => exact h
  | _ => trivial

theorem Comes.counts {attempts : Nat} {c : Cycle} (h : Comes attempts c) : c.Counts attempts := by
  induction h with
  | start s =>
    unfold Reload.start
    split
    · trivial
    · exact ⟨rfl, Nat.le_refl 1, Nat.le_max_left 1 attempts⟩
  | step e s _ ih => exact ih.step e s

/-- What an attempt cannot read makes a cycle wait, unless it was the last attempt. -/
theorem onFetched_of_unreadable {w : World} {s : Shared} {fault : Error} {plan : Plan} {n : Nat}
    (unreadable : s.tools.registry.raw w = .error fault) (more : n < plan.attempts) :
    (onFetched w plan n s).1 = .waiting plan n (delay usualWait n) := by
  have failed : attempt w plan s.tools = (.error fault, s.tools) := by
    simp only [attempt, Registry.reloadIfUpdated, unreadable]
  simp only [onFetched, failed, if_pos more]

/-- A cycle that never finds anything to read comes to each of its attempts, and waits after it. -/
theorem exists_comes_waiting {attempts n : Nat} (first : 1 ≤ n) (more : n < attempts) {w : World}
    {s : Shared} {fault : Error} (unreadable : s.tools.registry.raw w = .error fault)
    (idle : s.running = false) :
    ∃ plan, Comes attempts (.waiting plan n (delay usualWait n)) := by
  let plan : Plan := ⟨s.tools.catalog, s.tools.knownVersion, max 1 attempts⟩
  have waits : ∀ n < attempts, Comes attempts (.fetching plan n) →
      Comes attempts (.waiting plan n (delay usualWait n)) := by
    intro n more fetching
    have left : n < plan.attempts := Nat.lt_of_lt_of_le more (Nat.le_max_right 1 attempts)
    rw [← onFetched_of_unreadable unreadable left]
    exact .step (.fetched w) s fetching
  refine ⟨plan, waits n more ?_⟩
  induction first with
  | refl =>
    have started : (start attempts s).1 = .fetching plan 1 := by
      simp only [start, idle, Bool.false_eq_true, if_false, plan]
    exact started ▸ .start s
  | @step n _ ih =>
    have before := Nat.lt_of_succ_lt more
    exact .step .slept s (waits n before (ih before))

/-! ### How waits grow -/

theorem delay_usualWait (n : Nat) : delay usualWait n = min (Nat.pow 2 (n - 1)) maxFactor :=
  Nat.one_mul _

theorem delay_le_delay {m n : Nat} (base : Nat) (h : m ≤ n) : delay base m ≤ delay base n := by
  have grows : Nat.pow 2 (m - 1) ≤ Nat.pow 2 (n - 1) :=
    Nat.pow_le_pow_right (by decide) (Nat.sub_le_sub_right h 1)
  exact Nat.mul_le_mul_left base (by omega)

theorem delay_usualWait_lt (n : Nat) : delay usualWait n < ClientSettings.endOfTime := by
  have bound : maxFactor < ClientSettings.endOfTime := by decide
  rw [delay_usualWait]
  omega

/-- A wait is a power of two until the factor has 32 bits, and then the greatest such factor. -/
theorem delay_usualWait_eq (n : Nat) :
    delay usualWait (n + 1) = if n < 32 then Nat.pow 2 n else maxFactor := by
  rw [delay_usualWait, Nat.add_sub_cancel]
  split
  · next small =>
    have : Nat.pow 2 n ≤ Nat.pow 2 31 := Nat.pow_le_pow_right (by decide) (by omega)
    have : Nat.pow 2 31 ≤ maxFactor := by decide
    omega
  · next large =>
    have : Nat.pow 2 32 ≤ Nat.pow 2 n := Nat.pow_le_pow_right (by decide) (by omega)
    have : maxFactor ≤ Nat.pow 2 32 := by decide
    omega

end Reload

/-! ### Settings -/

/-- The check of settings does not look at those of the client, so it cannot refuse a timeout. -/
theorem Settings.validate_client (s : Settings) (client : ClientSettings) :
    { s with client }.validate = s.validate := rfl

/-- The times that are computed under given settings. -/
structure Settings.Times (s : Settings) : Prop where
  /-- The timeout of the client that fetches descriptions does not fit exactly when the sum of both
  settings does not. -/
  fetching : Gateway.checkClient s.client = .error .tooLong ↔
    ¬s.client.connectTimeout + s.client.readTimeout < ClientSettings.endOfTime
  /-- The timeout of the client that calls the API does not fit exactly when the sum of both
  settings does not. -/
  calling : ∀ base, Client.build s.client base = .error .tooLong ↔
    ¬s.client.connectTimeout + s.client.readTimeout < ClientSettings.endOfTime
  /-- A cycle waits after its first attempt and so on, but not after the last one. -/
  waits : ∀ n seconds, (∃ plan, Reload.Comes s.reload.attempts (.waiting plan n seconds)) ↔
    1 ≤ n ∧ n < s.reload.attempts ∧ seconds = Reload.delay Reload.usualWait n
  /-- The waits are powers of two until they are as long as they can be. -/
  doubling : ∀ n, Reload.delay Reload.usualWait (n + 1) =
    if n < 32 then Nat.pow 2 n else Reload.maxFactor
  /-- No wait is shorter than one before it. -/
  growing : ∀ m n, m ≤ n → Reload.delay Reload.usualWait m ≤ Reload.delay Reload.usualWait n
  /-- Every wait fits. -/
  fits : ∀ n, Reload.delay Reload.usualWait n < ClientSettings.endOfTime

namespace Settings.Sample

/-- The usual settings, but for the time for a connection. -/
def patient (connectTimeout : Nat) : Settings where
  location := "spec.json"
  baseUrl := some (.explicit "http://h")
  client := { ClientSettings.usual with connectTimeout }
  check := .none
  filters := .empty
  tools := .usual
  reload := .usual
  scopes := .usual

theorem validate_patient (connectTimeout : Nat) : (patient connectTimeout).validate = .ok () := by
  have accepted : (patient 5).validate.toOption = some () := by decide +kernel
  rw [show patient connectTimeout = { patient 5 with client := (patient connectTimeout).client }
    from rfl, validate_client]
  cases result : (patient 5).validate with
  | error e => rw [result] at accepted; cases accepted
  | ok _ => rfl

/-- What reloads share when there is nothing to read. -/
def lost : Reload.Shared := ⟨.ofRegistry ⟨"spec.json", .file "spec.json", .none, .empty, ⟨.null⟩⟩
  ⟨.usual, .usual, true⟩, false⟩

theorem raw_lost : ∃ fault, lost.tools.registry.raw ⟨⟨[], [], []⟩, []⟩ = .error fault :=
  ⟨_, rfl⟩

end Settings.Sample

open Settings.Sample in
/-- Under any settings, accepted or not, waits fit, and timeouts exactly when the sum of the two
settings fits. -/
theorem times_spec (s : Settings) : s.Times where
  fetching := Gateway.checkClient_eq_tooLong_iff
  calling _ := Client.build_eq_tooLong_iff
  waits n seconds := by
    constructor
    · rintro ⟨plan, comes⟩
      obtain ⟨total, first, more, rfl⟩ := comes.counts
      exact ⟨first, by omega, rfl⟩
    · rintro ⟨first, more, rfl⟩
      obtain ⟨fault, unreadable⟩ := raw_lost
      exact Reload.exists_comes_waiting first more unreadable rfl
  doubling := Reload.delay_usualWait_eq
  growing _ _ := Reload.delay_le_delay _
  fits := Reload.delay_usualWait_lt

theorem Gateway.build_eq_tooLong {σ : Type} {settings : GatewaySettings}
    (h : checkClient settings.engine.client = .error .tooLong) (w : World) (server : Server σ) :
    build w server settings = .error .tooLong := by
  rw [build, registry, h]
  rfl

open Settings.Sample in
/-- Settings with times of 64 bits that are accepted, although neither client can be made, so that
no gateway can be set up with them. -/
theorem accepted_times_too_long :
    (patient 0xFFFFFFFFFFFFFFFF).validate = .ok () ∧
    Gateway.checkClient (patient 0xFFFFFFFFFFFFFFFF).client = .error .tooLong ∧
    (∀ base, Client.build (patient 0xFFFFFFFFFFFFFFFF).client base = .error .tooLong) ∧
    ∀ (w : World) (server : Server Unit) (session : SessionMode),
      Gateway.build w server ⟨patient 0xFFFFFFFFFFFFFFFF, session⟩ = .error .tooLong := by
  have exceeds : ¬(patient 0xFFFFFFFFFFFFFFFF).client.connectTimeout +
      (patient 0xFFFFFFFFFFFFFFFF).client.readTimeout < ClientSettings.endOfTime := by decide
  have fetching := Gateway.checkClient_eq_tooLong_iff.mpr exceeds
  exact ⟨validate_patient _, fetching, fun _ => Client.build_eq_tooLong_iff.mpr exceeds,
    fun w server session => Gateway.build_eq_tooLong fetching w server⟩

end ToolGateway
