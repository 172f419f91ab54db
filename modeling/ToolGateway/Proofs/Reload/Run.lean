import ToolGateway.Reload.Cycle

/-!
# What a reload cycle does

An attempt fails, finds nothing new, or puts a new catalog in place of the old one and asks for the
changes that lead there (`attempt_spec`). A whole cycle does the same thing, however many of its
attempts fail on the way: either it keeps the catalog and asks for nothing, or it ends as updated
with a new catalog and exactly the changes of the difference (`run_effect`).
-/

namespace ToolGateway

/-- What a registry can do with a description that may be new: it fails and keeps the one it has, it
finds the known version again, or it stores what was made of the description. -/
inductive Registry.Reloaded (w : World) (known : Option String) (r : Registry) :
    Except Error Bool × Registry → Prop
  | failed (e : Error) : Reloaded w known r (.error e, r)
  | gated {raw : Document} (read : r.raw w = .ok raw) (same : raw.version = known) :
      Reloaded w known r (.ok false, r)
  | stored {raw document : Document} (read : r.raw w = .ok raw)
      (finished : finish w r.root r.filters raw = .ok document) :
      Reloaded w known r (.ok true, { r with document })

theorem Registry.reloadIfUpdated_spec (w : World) (known : Option String) (r : Registry) :
    Reloaded w known r (r.reloadIfUpdated w known) := by
  unfold reloadIfUpdated
  cases read : r.raw w with
  | error e => exact .failed e
  | ok raw =>
    dsimp only
    split
    · next gate =>
      rw [Bool.and_eq_true, beq_iff_eq] at gate
      exact .gated read gate.2
    · cases finished : finish w r.root r.filters raw with
      | error e => exact .failed e
      | ok document => exact .stored read finished

namespace Reload

/-! ### One attempt -/

/-- What an attempt can do with a toolset. A failed attempt may leave another description behind,
one that does not compile, but never another catalog. -/
inductive Attempted (w : World) (plan : Plan) (t : Toolset) :
    Except Error (ReloadOutcome × List Change) × Toolset → Prop
  | failed (e : Error) (registry : Registry)
      (bad : registry = t.registry ∨ ∃ e, t.compiler.catalog registry.document = .error e) :
      Attempted w plan t (.error e, { t with registry })
  | unchanged {raw : Document} (read : t.registry.raw w = .ok raw)
      (known : raw.version = plan.version) : Attempted w plan t (.ok (.noChange, []), t)
  | replaced {raw document : Document} (catalog : Catalog) (read : t.registry.raw w = .ok raw)
      (finished : Registry.finish w t.registry.root t.registry.filters raw = .ok document)
      (compiled : t.compiler.catalog document = .ok catalog) :
      Attempted w plan t
        (.ok (.updated (Diff.between plan.before catalog).removed.length
            (Diff.between plan.before catalog).upserted.length,
          (Diff.between plan.before catalog).changes catalog),
        { t with registry := { t.registry with document }, catalog })

theorem attempt_spec (w : World) (plan : Plan) (t : Toolset) :
    Attempted w plan t (attempt w plan t) := by
  have spec := t.registry.reloadIfUpdated_spec w plan.version
  unfold attempt
  generalize t.registry.reloadIfUpdated w plan.version = result at spec ⊢
  cases spec with
  | failed e => exact .failed e _ (Or.inl rfl)
  | gated read same => exact .unchanged read same
  | @stored raw document read finished =>
    simp only [Toolset.compile]
    cases compiled : t.compiler.catalog document with
    | error e => exact .failed e _ (Or.inr ⟨e, compiled⟩)
    | ok catalog => exact .replaced catalog read finished compiled

/-! ### A whole cycle -/

/-- What a cycle does: the catalog stays and nothing is asked for, or a new catalog takes its place
and the changes of the difference are asked for. -/
inductive Effect (before : Catalog) : ReloadOutcome → Catalog → List Change → Prop
  | kept {outcome : ReloadOutcome} (h : ∀ removed upserted, outcome ≠ .updated removed upserted) :
      Effect before outcome before []
  | replaced (after : Catalog) :
      Effect before
        (.updated (Diff.between before after).removed.length
          (Diff.between before after).upserted.length)
        after ((Diff.between before after).changes after)

/-- A cycle that has not replaced the catalog yet: it compares with the present one, and there is an
attempt to come when it waits. -/
inductive Pending (catalog : Catalog) : Cycle → Prop
  | fetching {plan : Plan} (n : Nat) (h : plan.before = catalog) :
      Pending catalog (.fetching plan n)
  | waiting {plan : Plan} {n : Nat} (seconds : Nat) (h : plan.before = catalog)
      (more : n < plan.attempts) : Pending catalog (.waiting plan n seconds)

@[simp] theorem drive_over (r : Surroundings) (fuel : Nat) (o : ReloadOutcome) (s : Shared) :
    drive r fuel (.over o) s = (.over o, s, []) := by
  cases fuel <;> rfl

theorem drive_notifying (r : Surroundings) (fuel : Nat) (o : ReloadOutcome) (s : Shared) :
    drive r (fuel + 1) (.notifying o) s = (.over o, { s with running := false }, []) := by
  simp [drive, Surroundings.event?, step, finish]

/-- From a cycle that has not replaced the catalog, enough steps lead to its end and have an effect
on the catalog. -/
theorem drive_effect (r : Surroundings) {fuel : Nat} {c : Cycle} {s : Shared}
    (hp : Pending s.tools.catalog c) (hf : c.steps ≤ fuel) :
    ∃ outcome, (drive r fuel c s).1 = .over outcome ∧
      Effect s.tools.catalog outcome (drive r fuel c s).2.1.tools.catalog
        (drive r fuel c s).2.2 := by
  induction fuel generalizing c s with
  | zero => cases hp <;> simp [Cycle.steps] at hf
  | succ fuel ih =>
    cases hp with
    | @fetching plan n hplan =>
      simp only [Cycle.steps] at hf
      simp only [drive, Surroundings.event?, step, onFetched]
      have spec := attempt_spec (r.world n) plan s.tools
      generalize attempt (r.world n) plan s.tools = result at spec
      cases spec with
      | failed e registry _ =>
        by_cases hn : n < plan.attempts
        · simp only [hn, if_true, List.nil_append]
          refine ih (s := { s with tools := { s.tools with registry } }) (.waiting _ hplan hn) ?_
          simp only [Cycle.steps]
          omega
        · simp only [hn, if_false, finish, drive_over, List.append_nil]
          exact ⟨_, rfl, .kept fun _ _ => ReloadOutcome.noConfusion⟩
      | unchanged _ _ =>
        simp only [finish, drive_over, List.append_nil]
        exact ⟨_, rfl, .kept fun _ _ => ReloadOutcome.noConfusion⟩
      -- Changes are asked for in a step of their own, and only when there are any.
      | replaced catalog _ _ _ =>
        obtain ⟨fuel, rfl⟩ : ∃ k, fuel = k + 1 := ⟨fuel - 1, by omega⟩
        have : Effect plan.before _ _ _ := .replaced catalog
        rw [← hplan]
        split
        · next heq => cases heq
        · next outcome tools heq =>
          simp only [Prod.mk.injEq, Except.ok.injEq] at heq
          obtain ⟨⟨rfl, hnil⟩, rfl⟩ := heq
          simp only [finish, drive_over, List.append_nil]
          rw [hnil] at this
          exact ⟨_, rfl, this⟩
        · next outcome changes tools hne heq =>
          simp only [Prod.mk.injEq, Except.ok.injEq] at heq
          obtain ⟨⟨rfl, rfl⟩, rfl⟩ := heq
          simp only [drive_notifying, List.append_nil]
          exact ⟨_, rfl, this⟩
    | @waiting plan n seconds hplan hn =>
      simp only [Cycle.steps] at hf
      simp only [drive, Surroundings.event?]
      cases r.cancelled with
      | true =>
        simp only [if_true, step, finish, drive_over, List.append_nil]
        exact ⟨_, rfl, .kept fun _ _ => ReloadOutcome.noConfusion⟩
      | false =>
        simp only [Bool.false_eq_true, if_false, step, List.nil_append]
        refine ih (.fetching (n + 1) hplan) ?_
        simp only [Cycle.steps]
        omega

/-- A whole cycle comes to its end. -/
theorem drive_start_effect (r : Surroundings) (attempts : Nat) (s : Shared) :
    ∃ outcome, (drive r (start attempts s).1.steps (start attempts s).1 (start attempts s).2).1 =
        .over outcome ∧
      Effect s.tools.catalog outcome
        (drive r (start attempts s).1.steps (start attempts s).1
          (start attempts s).2).2.1.tools.catalog
        (drive r (start attempts s).1.steps (start attempts s).1 (start attempts s).2).2.2 := by
  unfold start
  by_cases hs : s.running = true
  · simp only [hs, if_true, drive_over]
    exact ⟨_, rfl, .kept fun _ _ => ReloadOutcome.noConfusion⟩
  · simp only [hs]
    exact drive_effect r (s := { s with running := true }) (.fetching 1 rfl) (Nat.le_refl _)

/-- A cycle keeps the catalog and asks for nothing, or replaces it and asks for exactly the changes
of the difference; then, and only then, its outcome is an update. -/
theorem run_effect (r : Surroundings) (attempts : Nat) (s : Shared) :
    Effect s.tools.catalog (run r attempts s).1 (run r attempts s).2.1.tools.catalog
      (run r attempts s).2.2 := by
  obtain ⟨outcome, ended, effect⟩ := drive_start_effect r attempts s
  unfold run
  dsimp only
  rw [ended]
  exact effect

end Reload

end ToolGateway
