import ToolGateway.Proofs.Reload.InStep

/-!
# Cycles that overlap

Cycles start and are waited for in any order, and one that starts while another is at work is
skipped. A flight is a cycle with what it found, saw, asked for and left. Only one flight is under
way at a time, and nobody else touches the tools before it is over (`Traffic.Orderly`), so whatever
each step of a lone flight keeps, every flight in every run of moves keeps (`Traffic.run_spec`). A
cycle that does not end as updated never asked for anything and leaves the catalog that it found
(`flight_keeps_catalog`). A cycle that is run as a whole is a run of moves too
(`Traffic.exists_run_eq`).
-/

namespace ToolGateway.Reload

/-! ### Flights -/

def Cycle.isOver : Cycle → Bool
  | .over _ => true
  | _ => false

/-- Whether a cycle waits for an event. -/
def Cycle.awaits : Cycle → Event → Bool
  | .fetching _ _, .fetched _ => true
  | .notifying _, .notified => true
  | .waiting _ _ _, .slept => true
  | .waiting _ _ _, .cancelled => true
  | _, _ => false

/-- The world that an event shows. -/
def Event.world? : Event → Option World
  | .fetched w => some w
  | _ => none

/-- A cycle with the tools it found at its start, the worlds it saw, all changes it asked for, and
the tools it left after its last step. -/
structure Flight where
  cycle : Cycle
  found : Toolset
  seen : List World
  asked : List Change
  left : Toolset

/-- Takes the step that an event leads to. -/
def Flight.step (f : Flight) (e : Event) (s : Shared) : Flight × Shared :=
  let (cycle, s, changes) := Reload.step e f.cycle s
  (⟨cycle, f.found, f.seen ++ e.world?.toList, f.asked ++ changes, s.tools⟩, s)

/-- What all cycles share, and the cycles that were started, in order. -/
structure Traffic where
  shared : Shared
  flights : List Flight

/-- What can happen next: a cycle is started, or one gets an event. -/
inductive Move where
  | start (attempts : Nat)
  | event (i : Nat) (e : Event)

namespace Traffic

def idle (tools : Toolset) : Traffic := ⟨⟨tools, false⟩, []⟩

/-- Makes a move. An event that the cycle does not wait for is lost. -/
def move (t : Traffic) : Move → Traffic
  | .start attempts =>
    let (cycle, shared) := Reload.start attempts t.shared
    ⟨shared, t.flights ++ [⟨cycle, t.shared.tools, [], [], t.shared.tools⟩]⟩
  | .event i e =>
    match t.flights[i]? with
    | some f =>
      if f.cycle.awaits e then
        let (f, shared) := f.step e t.shared
        ⟨shared, t.flights.set i f⟩
      else t
    | none => t

def run (t : Traffic) (moves : List Move) : Traffic := moves.foldl move t

end Traffic

/-- An event that a cycle does not wait for changes nothing. -/
theorem step_of_not_awaits {c : Cycle} {e : Event} (h : c.awaits e = false) (s : Shared) :
    step e c s = (c, s, []) := by
  cases c <;> cases e <;> first | rfl | cases h

theorem Cycle.isOver_of_awaits {c : Cycle} {e : Event} (h : c.awaits e = true) :
    c.isOver = false := by
  cases c with
  | fetching _ _ | notifying _ | waiting _ _ _ => rfl
  | _ => cases e <;> cases h

/-! ### One flight at a time -/

/-- A flight that has just started. -/
def Flight.launched (attempts : Nat) (tools : Toolset) : Flight :=
  ⟨.fetching ⟨tools.catalog, tools.knownVersion, max 1 attempts⟩ 1, tools, [], [], tools⟩

/-- A flight that was skipped. -/
def Flight.skipped (tools : Toolset) : Flight := ⟨.over .skipped, tools, [], [], tools⟩

/-- The step of a flight that no other one disturbs. -/
def Flight.next (f : Flight) (e : Event) : Flight := (f.step e ⟨f.left, true⟩).1

/-- What holds of the tools and of each flight whatever a lone flight does. -/
structure Lasts (onTools : Toolset → Prop) (onFlight : Flight → Prop) : Prop where
  skipped : ∀ tools, onFlight (.skipped tools)
  launched : ∀ attempts tools, onTools tools → onFlight (.launched attempts tools)
  next : ∀ f e, f.cycle.awaits e = true → onFlight f → onTools f.left →
    onFlight (f.next e) ∧ onTools (f.next e).left

/-- What a step of a lone flight can do. A failed attempt may leave another description behind, one
that does not compile; only an attempt that compiled a new catalog asks for anything. -/
inductive Flight.Next : Flight → Event → Flight → Prop
  | failed {plan : Plan} {n : Nat} {found left : Toolset} {seen : List World} {asked : List Change}
      {w : World} {c : Cycle} (registry : Registry)
      (bad : registry = left.registry ∨ ∃ e, left.compiler.catalog registry.document = .error e)
      (after : c = .waiting plan n (delay usualWait n) ∨ c = .over .failure) :
      Next ⟨.fetching plan n, found, seen, asked, left⟩ (.fetched w)
        ⟨c, found, seen ++ [w], asked, { left with registry }⟩
  | gated {plan : Plan} {n : Nat} {found left : Toolset} {seen : List World} {asked : List Change}
      {w : World} {raw : Document} (read : left.registry.raw w = .ok raw)
      (known : raw.version = plan.version) :
      Next ⟨.fetching plan n, found, seen, asked, left⟩ (.fetched w)
        ⟨.over .noChange, found, seen ++ [w], asked, left⟩
  | replaced {plan : Plan} {n : Nat} {found left : Toolset} {seen : List World}
      {asked : List Change} {w : World} {raw document : Document} {c : Cycle}
      {outcome : ReloadOutcome} (catalog : Catalog)
      (read : left.registry.raw w = .ok raw)
      (finished : Registry.finish w left.registry.root left.registry.filters raw = .ok document)
      (compiled : left.compiler.catalog document = .ok catalog)
      (updated : outcome = .updated (Diff.between plan.before catalog).removed.length
        (Diff.between plan.before catalog).upserted.length)
      (after : c = .notifying outcome ∨ c = .over outcome) :
      Next ⟨.fetching plan n, found, seen, asked, left⟩ (.fetched w)
        ⟨c, found, seen ++ [w], asked ++ (Diff.between plan.before catalog).changes catalog,
          { left with registry := { left.registry with document }, catalog }⟩
  | notified {outcome : ReloadOutcome} {found left : Toolset} {seen : List World}
      {asked : List Change} :
      Next ⟨.notifying outcome, found, seen, asked, left⟩ .notified
        ⟨.over outcome, found, seen, asked, left⟩
  | slept {plan : Plan} {n seconds : Nat} {found left : Toolset} {seen : List World}
      {asked : List Change} :
      Next ⟨.waiting plan n seconds, found, seen, asked, left⟩ .slept
        ⟨.fetching plan (n + 1), found, seen, asked, left⟩
  | cancelled {plan : Plan} {n seconds : Nat} {found left : Toolset} {seen : List World}
      {asked : List Change} :
      Next ⟨.waiting plan n seconds, found, seen, asked, left⟩ .cancelled
        ⟨.over .interrupted, found, seen, asked, left⟩

theorem Flight.next_spec (f : Flight) (e : Event) (h : f.cycle.awaits e = true) :
    f.Next e (f.next e) := by
  obtain ⟨c, found, seen, asked, left⟩ := f
  cases c with
  | fetching plan n =>
    cases e with
    | fetched w =>
      have spec := attempt_spec w plan left
      simp only [next, step, Reload.step, onFetched, finish, Event.world?, Option.toList_some]
      generalize attempt w plan left = result at spec ⊢
      cases spec with
      | failed e registry bad =>
        by_cases more : n < plan.attempts
        · simp only [more, if_true, List.append_nil]
          exact .failed registry bad (Or.inl rfl)
        · simp only [more, if_false, List.append_nil]
          exact .failed registry bad (Or.inr rfl)
      | unchanged read known =>
        simp only [List.append_nil]
        exact .gated read known
      | @replaced raw document catalog read finished compiled =>
        split
        · next he => cases he
        · next outcome tools he =>
          simp only [Prod.mk.injEq, Except.ok.injEq] at he
          obtain ⟨⟨rfl, none⟩, rfl⟩ := he
          rw [← none]
          exact .replaced catalog read finished compiled rfl (Or.inr rfl)
        · next outcome changes tools _ he =>
          simp only [Prod.mk.injEq, Except.ok.injEq] at he
          obtain ⟨⟨rfl, rfl⟩, rfl⟩ := he
          exact .replaced catalog read finished compiled rfl (Or.inl rfl)
    | _ => cases h
  | notifying outcome =>
    cases e with
    | notified =>
      simp only [next, step, Reload.step, finish, Event.world?, Option.toList_none, List.append_nil]
      exact .notified
    | _ => cases h
  | waiting plan n seconds =>
    cases e with
    | slept =>
      simp only [next, step, Reload.step, Event.world?, Option.toList_none, List.append_nil]
      exact .slept
    | cancelled =>
      simp only [next, step, Reload.step, finish, Event.world?, Option.toList_none, List.append_nil]
      exact .cancelled
    | _ => cases h
  | _ => cases e <;> cases h

/-- A step lets go of the tools exactly when the cycle is over then. -/
theorem Flight.running_step (f : Flight) (e : Event) (h : f.cycle.awaits e = true) :
    (f.step e ⟨f.left, true⟩).2.running = !(f.next e).cycle.isOver := by
  obtain ⟨c, found, seen, asked, left⟩ := f
  cases c with
  | fetching plan n =>
    cases e with
    | fetched w =>
      simp only [next, step, Reload.step, onFetched, finish]
      split
      · split <;> rfl
      · rfl
      · rfl
    | _ => cases h
  | notifying _ | waiting _ _ _ => cases e <;> rfl
  | _ => cases e <;> cases h

namespace Traffic

/-- No flight is under way, or one is, and the tools are those that it left. -/
def Orderly (t : Traffic) : Prop :=
  (∀ f ∈ t.flights, f.cycle.isOver = true) ∨
    ∃ before f after, t.flights = before ++ f :: after ∧ t.shared = ⟨f.left, true⟩ ∧
      f.cycle.isOver = false ∧ ∀ g ∈ before ++ after, g.cycle.isOver = true

/-- The flight under way is the only one that an event can reach. -/
theorem eq_of_getElem? {f g : Flight} {before after : List Flight} {i : Nat}
    (others : ∀ g ∈ before ++ after, g.cycle.isOver = true)
    (there : (before ++ f :: after)[i]? = some g) (under : g.cycle.isOver = false) :
    i = before.length ∧ g = f := by
  have apart : ∀ h ∈ before ++ after, h ≠ g := by
    rintro _ mem rfl
    rw [others _ mem] at under
    cases under
  obtain ⟨first, last⟩ := List.forall_mem_append.mp apart
  rcases Nat.lt_trichotomy i before.length with lt | rfl | gt
  · rw [List.getElem?_append_left lt] at there
    exact absurd rfl (first g (List.mem_of_getElem? there))
  · rw [List.getElem?_append_right (Nat.le_refl _), Nat.sub_self] at there
    cases there
    exact ⟨rfl, rfl⟩
  · obtain ⟨k, rfl⟩ := Nat.exists_eq_add_of_lt gt
    have rest : before.length + k + 1 - before.length = k + 1 := by omega
    rw [List.getElem?_append_right (by omega), rest, List.getElem?_cons_succ] at there
    exact absurd rfl (last g (List.mem_of_getElem? there))

variable {t : Traffic} {onTools : Toolset → Prop} {onFlight : Flight → Prop}

/-- What is kept along a run of moves. -/
structure Kept (onTools : Toolset → Prop) (onFlight : Flight → Prop) (t : Traffic) : Prop where
  orderly : t.Orderly
  tools : onTools t.shared.tools
  flights : ∀ f ∈ t.flights, onFlight f

theorem Kept.start (lasts : Lasts onTools onFlight) (h : t.Kept onTools onFlight)
    (attempts : Nat) : (t.move (.start attempts)).Kept onTools onFlight := by
  obtain ⟨⟨tools', running⟩, flights⟩ := t
  obtain ⟨orderly, tools, kept⟩ := h
  have added : ∀ {p : Flight → Prop} {f : Flight}, (∀ g ∈ flights, p g) → p f →
      ∀ g ∈ flights ++ [f], p g := by
    intro p f all hf
    exact List.forall_mem_append.mpr ⟨all, List.forall_mem_singleton.mpr hf⟩
  cases running with
  | true =>
    refine ⟨?_, tools, added kept (lasts.skipped _)⟩
    rcases orderly with ended | ⟨before, f, after, rfl, shared, under, others⟩
    · exact Or.inl (added ended rfl)
    · refine Or.inr ⟨before, f, after ++ [.skipped tools'], ?_, shared, under, ?_⟩
      · exact List.append_assoc before (f :: after) [.skipped tools']
      rw [← List.append_assoc]
      exact List.forall_mem_append.mpr ⟨others, List.forall_mem_singleton.mpr rfl⟩
  | false =>
    refine ⟨?_, tools, added kept (lasts.launched attempts _ tools)⟩
    rcases orderly with ended | ⟨before, f, after, -, shared, -, -⟩
    · refine Or.inr ⟨flights, .launched attempts _, [], rfl, rfl, rfl, ?_⟩
      rwa [List.append_nil]
    · cases shared

theorem Kept.event (lasts : Lasts onTools onFlight) (h : t.Kept onTools onFlight)
    (i : Nat) (e : Event) : (t.move (.event i e)).Kept onTools onFlight := by
  unfold move
  dsimp only
  split
  · next g there =>
    split
    · next awaits =>
      obtain ⟨shared, flights⟩ := t
      obtain ⟨orderly, tools, kept⟩ := h
      have busy := Cycle.isOver_of_awaits awaits
      rcases orderly with ended | ⟨before, f, after, rfl, rfl, under, others⟩
      · rw [ended g (List.mem_of_getElem? there)] at busy
        cases busy
      · obtain ⟨rfl, rfl⟩ := eq_of_getElem? others there busy
        obtain ⟨hg, htools⟩ := lasts.next g e awaits (kept g (List.mem_of_getElem? there)) tools
        have put : (before ++ g :: after).set before.length (g.next e) =
            before ++ g.next e :: after := by simp
        have set : ∀ {p : Flight → Prop}, (∀ f ∈ before ++ after, p f) → p (g.next e) →
            ∀ f ∈ before ++ g.next e :: after, p f := by
          intro p others hp
          obtain ⟨first, last⟩ := List.forall_mem_append.mp others
          exact List.forall_mem_append.mpr ⟨first, List.forall_mem_cons.mpr ⟨hp, last⟩⟩
        show (⟨(g.step e ⟨g.left, true⟩).2, (before ++ g :: after).set before.length (g.next e)⟩ :
          Traffic).Kept onTools onFlight
        rw [put]
        refine ⟨?_, htools, set (fun f hf => kept f ?_) hg⟩
        · have running := g.running_step e awaits
          cases hover : (g.next e).cycle.isOver with
          | true => exact Or.inl (set others hover)
          | false =>
            rw [hover] at running
            have left : (g.step e ⟨g.left, true⟩).2 = ⟨(g.next e).left, true⟩ :=
              congrArg (Shared.mk _) running
            exact Or.inr ⟨before, g.next e, after, rfl, left, hover, others⟩
        · rcases List.mem_append.mp hf with hf | hf
          · exact List.mem_append_left _ hf
          · exact List.mem_append_right _ (List.mem_cons_of_mem _ hf)
    · exact h
  · exact h

/-- What lasts while a lone flight is under way lasts in every run of moves, whatever cycles
overlap. -/
theorem run_spec (lasts : Lasts onTools onFlight) {tools : Toolset} (h : onTools tools)
    (moves : List Move) : ((idle tools).run moves).Kept onTools onFlight := by
  have start : (idle tools).Kept onTools onFlight := by
    refine ⟨Or.inl fun f hf => ?_, h, fun f hf => ?_⟩ <;> cases hf
  generalize idle tools = t at start ⊢
  induction moves generalizing t with
  | nil => exact start
  | cons m moves ih =>
    cases m with
    | start attempts => exact ih _ (start.start lasts attempts)
    | event i e => exact ih _ (start.event lasts i e)

/-- A flight that is under way has the tools for itself. -/
theorem Orderly.shared_eq (h : t.Orderly) {f : Flight} (hf : f ∈ t.flights)
    (under : f.cycle.isOver = false) : t.shared = ⟨f.left, true⟩ := by
  rcases h with ended | ⟨before, g, after, flights, shared, -, others⟩
  · rw [ended f hf] at under
    cases under
  · rw [flights] at hf
    obtain ⟨i, there⟩ := List.mem_iff_getElem?.mp hf
    obtain ⟨-, rfl⟩ := eq_of_getElem? others there under
    exact shared

end Traffic

/-! ### What a flight asks for -/

/-- Before its end a flight has the catalog that it found and asked for nothing. When its outcome is
settled, it kept that catalog and asked for nothing, or replaced it and asked for the changes of the
difference. -/
def Flight.Accounted (f : Flight) : Prop :=
  match f.cycle with
  | .fetching plan _ | .waiting plan _ _ =>
    plan.before = f.found.catalog ∧ f.asked = [] ∧ f.left.catalog = f.found.catalog
  | .notifying outcome | .over outcome =>
    Effect f.found.catalog outcome f.left.catalog f.asked

theorem lasts_accounted : Lasts (fun _ => True) Flight.Accounted where
  skipped _ := .kept fun _ _ => ReloadOutcome.noConfusion
  launched _ _ _ := ⟨rfl, rfl, rfl⟩
  next f e awaits h _ := by
    refine ⟨?_, trivial⟩
    have step := f.next_spec e awaits
    generalize f.next e = f' at step ⊢
    cases step with
    | failed registry _ after =>
      obtain ⟨before, rfl, same⟩ := h
      rcases after with rfl | rfl
      · exact ⟨before, rfl, same⟩
      · show Effect _ .failure _ _
        rw [same]
        exact .kept fun _ _ => ReloadOutcome.noConfusion
    | gated _ _ =>
      obtain ⟨-, rfl, same⟩ := h
      show Effect _ .noChange _ _
      rw [same]
      exact .kept fun _ _ => ReloadOutcome.noConfusion
    | replaced catalog _ _ _ updated after =>
      obtain ⟨before, rfl, -⟩ := h
      rw [before] at updated ⊢
      rcases after with rfl | rfl
      · exact updated ▸ .replaced catalog
      · exact updated ▸ .replaced catalog
    | notified => exact h
    | slept => exact h
    | cancelled =>
      obtain ⟨-, rfl, same⟩ := h
      show Effect _ .interrupted _ _
      rw [same]
      exact .kept fun _ _ => ReloadOutcome.noConfusion

/-- In every run of moves, a cycle that ends as failed, interrupted, skipped or without a change
asked for nothing and leaves the catalog that it found, and one that ends as updated asked for all
changes of the difference. As long as a cycle has not got that far, the tools have the catalog that
it found. -/
theorem flight_keeps_catalog {tools : Toolset} {moves : List Move} {f : Flight}
    (hf : f ∈ ((Traffic.idle tools).run moves).flights) :
    (∀ outcome, f.cycle = .over outcome →
      (outcome ∈ [.failure, .interrupted, .skipped, .noChange] →
        f.asked = [] ∧ f.left.catalog = f.found.catalog) ∧
      ∀ removed upserted, outcome = .updated removed upserted →
        f.asked = (Diff.between f.found.catalog f.left.catalog).changes f.left.catalog) ∧
    (f.cycle.isOver = false → (∃ outcome, f.cycle = .notifying outcome) ∨
      f.asked = [] ∧ ((Traffic.idle tools).run moves).shared.tools.catalog = f.found.catalog) := by
  have kept : ((Traffic.idle tools).run moves).Kept _ _ :=
    Traffic.run_spec lasts_accounted trivial moves
  obtain ⟨orderly, -, flights⟩ := kept
  have account := flights f hf
  constructor
  · intro outcome ended
    rw [Flight.Accounted, ended] at account
    generalize f.left.catalog = catalog, f.asked = asked at account ⊢
    cases account with
    | kept settled => exact ⟨fun _ => ⟨rfl, rfl⟩, fun _ _ he => absurd he (settled _ _)⟩
    | replaced =>
      refine ⟨fun mem => ?_, fun _ _ _ => rfl⟩
      simp at mem
  · intro under
    rw [orderly.shared_eq hf under]
    unfold Flight.Accounted at account
    split at account
    · exact Or.inr account.2
    · exact Or.inr account.2
    · next outcome notifying => exact Or.inl ⟨outcome, notifying⟩
    · next ended =>
      rw [ended] at under
      cases under

/-! ### A cycle by itself -/

theorem Surroundings.awaits_of_event? {r : Surroundings} {c : Cycle} {e : Event}
    (h : r.event? c = some e) : c.awaits e = true := by
  cases c with
  | waiting _ _ _ =>
    cases h
    split <;> rfl
  | fetching _ _ | notifying _ =>
    cases h
    rfl
  | _ => cases h

namespace Traffic

/-- Driving the cycle of the flight that was started last is a run of moves. -/
theorem exists_run_eq_drive (r : Surroundings) (fuel : Nat) (t : Traffic) {before : List Flight}
    {f : Flight} (last : t.flights = before ++ [f]) :
    let driven := drive r fuel f.cycle t.shared
    ∃ moves g, t.run moves = ⟨driven.2.1, before ++ [g]⟩ ∧ g.cycle = driven.1 ∧
      g.found = f.found ∧ g.asked = f.asked ++ driven.2.2 := by
  induction fuel generalizing t f with
  | zero =>
    obtain ⟨shared, _⟩ := t
    cases last
    exact ⟨[], f, rfl, rfl, rfl, (List.append_nil _).symm⟩
  | succ fuel ih =>
    unfold drive
    cases event : r.event? f.cycle with
    | none =>
      obtain ⟨shared, _⟩ := t
      cases last
      exact ⟨[], f, rfl, rfl, rfl, (List.append_nil _).symm⟩
    | some e =>
      have moved : t.move (.event before.length e) =
          ⟨(f.step e t.shared).2, before ++ [(f.step e t.shared).1]⟩ := by
        simp [move, last, Surroundings.awaits_of_event? event]
      obtain ⟨moves, g, ran, cycle, found, asked⟩ :=
        ih (t.move (.event before.length e)) (congrArg flights moved)
      rw [moved] at ran cycle asked
      refine ⟨.event before.length e :: moves, g, ?_, cycle, found, ?_⟩
      · exact (congrArg (fun t => run t moves) moved).trans ran
      · rw [asked]
        exact List.append_assoc _ _ _

/-- A whole cycle that nothing interferes with is a run of moves, which ends with the flight of that
cycle. -/
theorem exists_run_eq (r : Surroundings) (attempts : Nat) (t : Traffic) :
    let (outcome, shared, changes) := Reload.run r attempts t.shared
    ∃ moves f, t.run moves = ⟨shared, t.flights ++ [f]⟩ ∧ f.cycle = .over outcome ∧
      f.found = t.shared.tools ∧ f.asked = changes := by
  obtain ⟨outcome, ended, -⟩ := drive_start_effect r attempts t.shared
  have moved : t.move (.start attempts) = ⟨(start attempts t.shared).2, t.flights ++
      [⟨(start attempts t.shared).1, t.shared.tools, [], [], t.shared.tools⟩]⟩ := rfl
  unfold Reload.run
  dsimp only
  generalize start attempts t.shared = started at ended moved ⊢
  obtain ⟨moves, f, ran, cycle, found, asked⟩ :=
    exists_run_eq_drive r started.1.steps (t.move (.start attempts)) (congrArg flights moved)
  rw [moved] at ran cycle asked
  refine ⟨.start attempts :: moves, f, ?_, ?_, found, asked⟩
  · exact (congrArg (fun t => run t moves) moved).trans ran
  · rw [cycle, ended]
    rfl

end Traffic

/-! ### A cycle that is interrupted after it replaced the description -/

namespace Sample

open Gateway.Sample (world description)

/-- A cycle finds a description whose only operation cannot be named. While it waits, another one
starts; then the wait is cancelled. -/
def quarrel : List Move :=
  [.start 2, .event 0 (.fetched (world (description "2" [("/a", "-")]))), .start 1,
    .event 0 .cancelled]

/-- Whether a flight ended with an outcome. -/
def endedAs (outcome : ReloadOutcome) (f : Flight) : Bool :=
  match f.cycle with
  | .over o => o == outcome
  | _ => false

theorem over_of_endedAs {outcome : ReloadOutcome} {f : Flight} (h : endedAs outcome f = true) :
    f.cycle = .over outcome := by
  unfold endedAs at h
  split at h
  · next he => exact he.trans (congrArg _ (beq_iff_eq.mp h))
  · cases h

/-- Whether a flight ended as interrupted and left version 2 of the description behind. -/
def wasInterrupted (f : Flight) : Bool :=
  endedAs .interrupted f && f.left.registry.version == some "2"

theorem exists_interrupted : ∃ g, Gateway.build (world (description "1" [("/a", "x")]))
    Gateway.Sample.silent Gateway.Sample.settings = .ok g ∧
    ((Traffic.idle g.tools).run quarrel).flights.any wasInterrupted = true :=
  Except.exists_of_any
    (p := fun g : Gateway Unit => ((Traffic.idle g.tools).run quarrel).flights.any wasInterrupted)
    (by decide +kernel)

end Sample

open Sample in
/-- The statement at the interrupted cycle. -/
theorem flight_keeps_catalog_interrupted : ∃ tools f,
    f ∈ ((Traffic.idle tools).run quarrel).flights ∧ f.cycle = .over .interrupted ∧
    f.left.registry.version = some "2" ∧
    (∀ outcome, f.cycle = .over outcome →
      (outcome ∈ [.failure, .interrupted, .skipped, .noChange] →
        f.asked = [] ∧ f.left.catalog = f.found.catalog) ∧
      ∀ removed upserted, outcome = .updated removed upserted →
        f.asked = (Diff.between f.found.catalog f.left.catalog).changes f.left.catalog) ∧
    (f.cycle.isOver = false → (∃ outcome, f.cycle = .notifying outcome) ∨
      f.asked = [] ∧
        ((Traffic.idle tools).run quarrel).shared.tools.catalog = f.found.catalog) := by
  obtain ⟨g, -, some⟩ := exists_interrupted
  obtain ⟨f, hf, was⟩ := List.any_eq_true.mp some
  simp only [wasInterrupted, Bool.and_eq_true, beq_iff_eq] at was
  obtain ⟨ended, version⟩ := was
  exact ⟨g.tools, f, hf, over_of_endedAs ended, version, flight_keeps_catalog hf⟩

end ToolGateway.Reload
