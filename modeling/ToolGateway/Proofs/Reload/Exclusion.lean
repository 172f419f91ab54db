import ToolGateway.Proofs.Reload.Overlap

/-!
# One cycle at a time

The flag that a cycle is at work is a lock: a cycle that finds it set is skipped, and the one that
set it clears it at its end, whatever the end is. In every run of moves the flag is set exactly while
a flight is under way, and there is never more than one (`Traffic.one_under_way`). Nor is the lock
kept forever: each event that a flight hears brings it nearer to its end (`step_spec`), so
a flight is over after as many events as are counted at its start, in whatever company it flies.
-/

namespace ToolGateway.Reload

/-! ### A flight comes to its end -/

/-- After an attempt a cycle is over, or it tells the clients, or it waits and has attempts left. -/
theorem onFetched_spec (w : World) (plan : Plan) (n : Nat) (s : Shared) :
    (∃ outcome, (onFetched w plan n s).1 = .over outcome) ∨
      (∃ outcome, (onFetched w plan n s).1 = .notifying outcome) ∨
      n < plan.attempts ∧ (onFetched w plan n s).1 = .waiting plan n (delay usualWait n) := by
  unfold onFetched
  split
  · by_cases more : n < plan.attempts
    · rw [if_pos more]
      exact Or.inr (Or.inr ⟨more, rfl⟩)
    · rw [if_neg more]
      exact Or.inl ⟨.failure, rfl⟩
  · exact Or.inl ⟨_, rfl⟩
  · exact Or.inr (Or.inl ⟨_, rfl⟩)

/-- A cycle that waits has attempts left. -/
def Cycle.HasAttempts : Cycle → Prop
  | .waiting plan n _ => n < plan.attempts
  | _ => True

/-- Every event that a cycle hears brings it nearer to its end. -/
theorem step_spec {c : Cycle} {e : Event} (awaits : c.awaits e = true) (h : c.HasAttempts)
    (s : Shared) : (step e c s).1.HasAttempts ∧ (step e c s).1.steps < c.steps := by
  cases c with
  | fetching plan n =>
    cases e with
    | fetched w =>
      show (onFetched w plan n s).1.HasAttempts ∧ (onFetched w plan n s).1.steps < _
      rcases onFetched_spec w plan n s with ⟨outcome, ended⟩ | ⟨outcome, notifying⟩ | ⟨more, waiting⟩
      · simp [ended, Cycle.HasAttempts, Cycle.steps]
      · simp [notifying, Cycle.HasAttempts, Cycle.steps]
      · simp [waiting, Cycle.HasAttempts, Cycle.steps, more]
    | _ => cases awaits
  | notifying outcome =>
    cases e with
    | notified => exact ⟨trivial, Nat.zero_lt_one⟩
    | _ => cases awaits
  | waiting plan n seconds =>
    have more : n < plan.attempts := h
    cases e with
    | slept =>
      refine ⟨trivial, ?_⟩
      show 2 * (plan.attempts - (n + 1)) + 2 < 2 * (plan.attempts - n) + 1
      omega
    | cancelled => exact ⟨trivial, Nat.zero_lt_succ _⟩
    | _ => cases awaits
  | _ => cases e <;> cases awaits

theorem lasts_hasAttempts : Lasts (fun _ => True) (·.cycle.HasAttempts) where
  skipped _ := trivial
  launched _ _ _ := trivial
  next f _ awaits h _ := ⟨(step_spec awaits h ⟨f.left, true⟩).1, trivial⟩

/-- A cycle that is not over waits for something. -/
theorem Cycle.exists_awaits {c : Cycle} (h : c.isOver = false) : ∃ e, c.awaits e = true := by
  cases c with
  | fetching _ _ => exact ⟨.fetched default, rfl⟩
  | notifying _ => exact ⟨.notified, rfl⟩
  | waiting _ _ _ => exact ⟨.slept, rfl⟩
  | _ => cases h

theorem Cycle.isOver_of_steps {c : Cycle} (h : c.steps = 0) : c.isOver = true := by
  cases c with
  | fetching _ _ | notifying _ | waiting _ _ _ => simp [steps] at h
  | _ => rfl

namespace Traffic

/-- Whether a move brings a flight an event that it waits for. -/
def isHeard (t : Traffic) (i : Nat) : Move → Bool
  | .start _ => false
  | .event j e => j == i && t.flights[i]?.any (·.cycle.awaits e)

/-- How many events that it waits for a flight gets along some moves. -/
def heard (i : Nat) : Traffic → List Move → Nat
  | _, [] => 0
  | t, m :: moves => (if t.isHeard i m then 1 else 0) + heard i (t.move m) moves

theorem kept_hasAttempts (tools : Toolset) (moves : List Move) :
    ((idle tools).run moves).Kept (fun _ => True) (·.cycle.HasAttempts) :=
  run_spec lasts_hasAttempts trivial moves

variable {t : Traffic} {i : Nat} {f : Flight}

/-- A move leaves a flight as it is, unless it brings an event that the flight waits for. -/
theorem getElem?_move (orderly : t.Orderly) (there : t.flights[i]? = some f) (m : Move) :
    t.isHeard i m = false ∧ (t.move m).flights[i]? = some f ∨
      t.isHeard i m = true ∧ ∃ e, f.cycle.awaits e = true ∧
        (t.move m).flights[i]? = some (f.next e) ∧
        (t.move m).shared.running = !(f.next e).cycle.isOver := by
  cases m with
  | start attempts =>
    refine Or.inl ⟨rfl, ?_⟩
    show (t.flights ++ _)[i]? = some f
    rw [List.getElem?_append_left (List.getElem?_eq_some_iff.mp there).1, there]
  | event j e =>
    by_cases same : j = i
    · subst same
      by_cases awaits : f.cycle.awaits e = true
      · have shared := orderly.shared_eq (List.mem_of_getElem? there)
          (Cycle.isOver_of_awaits awaits)
        have moved : t.move (.event j e) = ⟨(f.step e t.shared).2, t.flights.set j (f.next e)⟩ := by
          simp [move, there, awaits, shared, Flight.next]
        refine Or.inr ⟨by simp [isHeard, there, awaits], e, awaits, ?_, ?_⟩
        · rw [moved]
          exact List.getElem?_set_self (List.getElem?_eq_some_iff.mp there).1
        · rw [moved, shared]
          exact f.running_step e awaits
      · refine Or.inl ⟨by simp [isHeard, there, awaits], ?_⟩
        simp [move, there, awaits]
    · refine Or.inl ⟨by simp [isHeard, same], ?_⟩
      unfold move
      dsimp only
      split
      · split
        · exact (List.getElem?_set_ne same).trans there
        · exact there
      · exact there

theorem Kept.move (h : t.Kept (fun _ => True) (·.cycle.HasAttempts)) (m : Move) :
    (t.move m).Kept (fun _ => True) (·.cycle.HasAttempts) := by
  cases m with
  | start attempts => exact h.start lasts_hasAttempts attempts
  | event j e => exact h.event lasts_hasAttempts j e

/-- Along any moves a flight loses at least one step for each event that it hears. -/
theorem steps_run (moves : List Move) (kept : t.Kept (fun _ => True) (·.cycle.HasAttempts))
    (there : t.flights[i]? = some f) :
    ∃ g, (t.run moves).flights[i]? = some g ∧ g.cycle.steps + heard i t moves ≤ f.cycle.steps := by
  induction moves generalizing t f with
  | nil => exact ⟨f, there, Nat.le_refl _⟩
  | cons m moves ih =>
    rw [heard]
    rcases getElem?_move kept.orderly there m with ⟨unheard, same⟩ | ⟨heard, e, awaits, next, -⟩
    · obtain ⟨g, ran, fewer⟩ := ih (kept.move m) same
      refine ⟨g, ran, ?_⟩
      rw [unheard]
      simpa using fewer
    · obtain ⟨g, ran, fewer⟩ := ih (kept.move m) next
      have nearer : (f.next e).cycle.steps < f.cycle.steps :=
        (step_spec awaits (kept.flights f (List.mem_of_getElem? there)) _).2
      refine ⟨g, ran, ?_⟩
      rw [heard, if_pos rfl]
      omega

/-! ### Only one flight is under way -/

theorem Orderly.eq_of_under_way (h : t.Orderly) {j : Nat} {g : Flight}
    (hf : t.flights[i]? = some f) (hg : t.flights[j]? = some g) (underF : f.cycle.isOver = false)
    (underG : g.cycle.isOver = false) : i = j := by
  rcases h with ended | ⟨before, only, after, flights, -, -, others⟩
  · rw [ended f (List.mem_of_getElem? hf)] at underF
    cases underF
  · rw [flights] at hf hg
    exact (eq_of_getElem? others hf underF).1.trans (eq_of_getElem? others hg underG).1.symm

/-- While the flag is set, a flight is under way. -/
def Flagged (t : Traffic) : Prop :=
  t.shared.running = true → ∃ f ∈ t.flights, f.cycle.isOver = false

theorem Flagged.move (orderly : t.Orderly) (h : t.Flagged) (m : Move) : (t.move m).Flagged := by
  cases m with
  | start attempts =>
    obtain ⟨⟨tools, running⟩, flights⟩ := t
    intro _
    cases running with
    | true =>
      obtain ⟨f, hf, under⟩ := h rfl
      exact ⟨f, List.mem_append_left _ hf, under⟩
    | false => exact ⟨.launched attempts tools, List.mem_append_right _ List.mem_cons_self, rfl⟩
  | event j e =>
    intro running
    cases there : t.flights[j]? with
    | none =>
      have same : t.move (.event j e) = t := by simp [Traffic.move, there]
      rw [same] at running ⊢
      exact h running
    | some f =>
      by_cases awaits : f.cycle.awaits e = true
      · rcases getElem?_move orderly there (.event j e) with ⟨unheard, -⟩ | ⟨-, e, -, next, flag⟩
        · simp [isHeard, there, awaits] at unheard
        · rw [running] at flag
          exact ⟨f.next e, List.mem_of_getElem? next, by simpa using flag.symm⟩
      · have same : t.move (.event j e) = t := by simp [Traffic.move, there, awaits]
        rw [same] at running ⊢
        exact h running

theorem flagged_run (tools : Toolset) (moves : List Move) : ((idle tools).run moves).Flagged := by
  have start : (idle tools).Kept (fun _ => True) (·.cycle.HasAttempts) := kept_hasAttempts tools []
  have clear : (idle tools).Flagged := fun running => by cases running
  generalize idle tools = t at start clear
  induction moves generalizing t with
  | nil => exact clear
  | cons m moves ih => exact ih _ (start.move m) (clear.move start.orderly m)

/-- In every run of moves at most one cycle is under way, and the flag is set exactly while there is
one. A cycle that finds the flag set ends as skipped, asks for nothing and changes nothing; one that
finds it clear sets it. The event with which a cycle ends clears the flag. A cycle that is under way
waits for some event, and whatever else happens it is over after as many events as it has steps
left, so that the flag does not stay set. -/
theorem one_under_way (tools : Toolset) (moves : List Move) :
    let t := (idle tools).run moves
    (∀ (i j : Nat) (f g : Flight), t.flights[i]? = some f → t.flights[j]? = some g →
      f.cycle.isOver = false → g.cycle.isOver = false → i = j) ∧
    (t.shared.running = true ↔ ∃ f ∈ t.flights, f.cycle.isOver = false) ∧
    (∀ attempts, t.shared.running = true →
      t.move (.start attempts) =
        ⟨t.shared, t.flights ++ [⟨.over .skipped, t.shared.tools, [], [], t.shared.tools⟩]⟩) ∧
    (∀ attempts, t.shared.running = false →
      t.move (.start attempts) =
        ⟨⟨t.shared.tools, true⟩, t.flights ++ [.launched attempts t.shared.tools]⟩) ∧
    (∀ (i : Nat) (e : Event) (f g : Flight) (outcome : ReloadOutcome),
      t.flights[i]? = some f → f.cycle.isOver = false →
      (t.move (.event i e)).flights[i]? = some g → g.cycle = .over outcome →
      (t.move (.event i e)).shared.running = false) ∧
    (∀ (i : Nat) (f : Flight), t.flights[i]? = some f → f.cycle.isOver = false →
      (∃ e, f.cycle.awaits e = true) ∧
      ∀ more, f.cycle.steps ≤ heard i t more →
        ∃ g, (t.run more).flights[i]? = some g ∧ g.cycle.isOver = true) := by
  intro t
  have kept : t.Kept _ _ := kept_hasAttempts tools moves
  have orderly := kept.orderly
  refine ⟨?_, ⟨flagged_run tools moves, ?_⟩, ?_, ?_, ?_, ?_⟩
  · intro i j f g hf hg underF underG
    exact orderly.eq_of_under_way hf hg underF underG
  · rintro ⟨f, hf, under⟩
    rw [orderly.shared_eq hf under]
  · intro attempts running
    simp [move, start, running]
  · intro attempts clear
    simp [move, start, clear, Flight.launched]
  · intro i e f g outcome hf under hg ended
    rcases getElem?_move orderly hf (.event i e) with ⟨-, same⟩ | ⟨-, e, -, next, flag⟩
    · rw [same] at hg
      cases hg
      rw [ended] at under
      cases under
    · rw [next] at hg
      cases hg
      rw [flag, ended]
      rfl
  · intro i f hf under
    refine ⟨Cycle.exists_awaits under, ?_⟩
    intro more enough
    obtain ⟨g, ran, fewer⟩ := steps_run more kept hf
    exact ⟨g, ran, Cycle.isOver_of_steps (by omega)⟩

end Traffic

end ToolGateway.Reload
