import ToolGateway.Proofs.Reload.Compiled

/-!
# What clients are shown

Clients are shown the published tools and the scopes to ask for. A cycle that finds a new description
puts it in place first and compiles it then, which may fail. The scopes are discovered for the
description in place, and remembered until another one takes its place. The published tools follow
the catalog, which came of the last description that compiled (`Live.Sound`). So at every moment the
scopes are those of the current description, and the tools belong to the same description exactly
when that one compiles (`shown_consistent_iff`).
-/

namespace ToolGateway

variable {σ : Type}

/-! ### What a move does to the tools -/

namespace Reload

/-- The description that a cycle puts in place when it can read one. -/
def Cycle.puts (w : World) (r : Registry) : Cycle → Option Document
  | .fetching plan _ =>
    match r.reloadIfUpdated w plan.version with
    | (.ok true, r) => some r.document
    | _ => none
  | _ => none

/-- What a step can do to a toolset: nothing, or it puts a description in place. When that one does
not compile the catalog stays, else the changes that lead to the new catalog are asked for. -/
inductive Moved (t : Toolset) : Toolset → Option Document → List Change → Prop
  | kept : Moved t t none []
  | unusable {document : Document} {e : Error} (bad : t.compiler.catalog document = .error e) :
      Moved t { t with registry := { t.registry with document } } (some document) []
  | replaced {document : Document} {catalog : Catalog}
      (compiled : t.compiler.catalog document = .ok catalog) :
      Moved t { t with registry := { t.registry with document }, catalog } (some document)
        ((Diff.between t.catalog catalog).changes catalog)

/-- The changes that come of an attempt are asked for, whatever the cycle does next. -/
theorem onFetched_effect (w : World) (plan : Plan) (n : Nat) (s : Shared) :
    (onFetched w plan n s).2.1.tools = (attempt w plan s.tools).2 ∧
      (onFetched w plan n s).2.2 = ((attempt w plan s.tools).1.toOption.map (·.2)).getD [] := by
  unfold onFetched
  split
  · next failed =>
    rw [failed]
    split <;> exact ⟨rfl, rfl⟩
  · next unchanged =>
    rw [unchanged]
    exact ⟨rfl, rfl⟩
  · next changed =>
    rw [changed]
    exact ⟨rfl, rfl⟩

theorem moved_attempt (w : World) (plan : Plan) (n : Nat) {t : Toolset}
    (before : plan.before = t.catalog) :
    Moved t (attempt w plan t).2 (Cycle.puts w t.registry (.fetching plan n))
      (((attempt w plan t).1.toOption.map (·.2)).getD []) := by
  have spec := t.registry.reloadIfUpdated_spec w plan.version
  have puts : Cycle.puts w t.registry (.fetching plan n) =
      match t.registry.reloadIfUpdated w plan.version with
      | (.ok true, r) => some r.document
      | _ => none := rfl
  rw [puts]
  unfold attempt
  generalize t.registry.reloadIfUpdated w plan.version = result at spec ⊢
  cases spec with
  | failed e => exact .kept
  | gated read same => exact .kept
  | @stored raw document read finished =>
    dsimp only [Toolset.compile]
    cases compiled : t.compiler.catalog document with
    | error e => exact .unusable compiled
    | ok catalog =>
      dsimp only
      rw [before]
      exact .replaced compiled

namespace Traffic

/-- The current description. -/
def document (t : Traffic) : Document := t.shared.tools.registry.document

/-- The description that a move puts in place. -/
def puts (t : Traffic) : Move → Option Document
  | .event i (.fetched w) => (t.flights[i]?).bind (·.cycle.puts w t.shared.tools.registry)
  | _ => none

/-- The changes that a move asks for. -/
def asks (t : Traffic) : Move → List Change
  | .start _ => []
  | .event i e => ((t.flights[i]?).map fun f => (step e f.cycle t.shared).2.2).getD []

variable {t : Traffic}

theorem moved_of_lost {i : Nat} {e : Event}
    (lost : ∀ f, t.flights[i]? = some f → f.cycle.awaits e = false) :
    Moved t.shared.tools (t.move (.event i e)).shared.tools (t.puts (.event i e))
      (t.asks (.event i e)) := by
  cases there : t.flights[i]? with
  | none =>
    have puts : t.puts (.event i e) = none := by cases e <;> simp [Traffic.puts, there]
    simp only [move, asks, there, puts, Option.map_none, Option.getD_none]
    exact .kept
  | some f =>
    have unheard := lost f there
    have puts : t.puts (.event i e) = none := by
      cases e with
      | fetched w =>
        obtain ⟨c, _, _, _, _⟩ := f
        cases c with
        | fetching plan n => cases unheard
        | _ => simp [Traffic.puts, there, Cycle.puts]
      | _ => rfl
    have asks : t.asks (.event i e) = [] := by
      simp [Traffic.asks, there, step_of_not_awaits unheard]
    simp only [move, there, puts, asks, unheard]
    exact .kept

theorem move_spec (kept : t.Kept (fun _ => True) Flight.Accounted) (m : Move) :
    Moved t.shared.tools (t.move m).shared.tools (t.puts m) (t.asks m) := by
  cases m with
  | start attempts =>
    have same : (t.move (.start attempts)).shared.tools = t.shared.tools := by
      show (start attempts t.shared).2.tools = _
      unfold start
      split <;> rfl
    rw [same]
    exact .kept
  | event i e =>
    by_cases heard : ∃ f, t.flights[i]? = some f ∧ f.cycle.awaits e = true
    · obtain ⟨f, there, awaits⟩ := heard
      have account := kept.flights f (List.mem_of_getElem? there)
      have shared := kept.orderly.shared_eq (List.mem_of_getElem? there)
        (Cycle.isOver_of_awaits awaits)
      obtain ⟨c, found, seen, asked, left⟩ := f
      have moved : (t.move (.event i e)).shared = (step e c t.shared).2.1 := by
        simp [move, there, awaits, Flight.step]
      have asks : t.asks (.event i e) = (step e c t.shared).2.2 := by simp [Traffic.asks, there]
      rw [moved, asks]
      cases c with
      | fetching plan n =>
        cases e with
        | fetched w =>
          -- The plan compares with the catalog that the cycle found, which is still there.
          obtain ⟨before, -, same⟩ := account
          have puts : t.puts (.event i (.fetched w)) =
              Cycle.puts w t.shared.tools.registry (.fetching plan n) := by
            simp [Traffic.puts, there]
          obtain ⟨tools, changes⟩ := onFetched_effect w plan n t.shared
          rw [puts, step, tools, changes]
          apply moved_attempt
          rw [shared]
          exact before.trans same.symm
        | _ => cases awaits
      | notifying outcome =>
        cases e with
        | notified => exact .kept
        | _ => cases awaits
      | waiting plan n seconds =>
        cases e with
        | slept => exact .kept
        | cancelled => exact .kept
        | _ => cases awaits
      | _ => cases e <;> cases awaits
    · apply moved_of_lost
      intro f there
      cases awaits : f.cycle.awaits e with
      | true => exact absurd ⟨f, there, awaits⟩ heard
      | false => rfl

theorem Kept.move_accounted (kept : t.Kept (fun _ => True) Flight.Accounted) (m : Move) :
    (t.move m).Kept (fun _ => True) Flight.Accounted := by
  cases m with
  | start attempts => exact kept.start lasts_accounted attempts
  | event i e => exact kept.event lasts_accounted i e

end Traffic

namespace Moved

variable {tools after : Toolset} {put : Option Document} {asked : List Change}

theorem current (h : Moved tools after put asked) {history : List Document}
    (current : history.getLast? = some tools.registry.document) :
    (history ++ put.toList).getLast? = some after.registry.document := by
  cases h with
  | kept => simpa using current
  | unusable bad => simp
  | replaced compiled => simp

theorem compiled (h : Moved tools after put asked) {history : List Document}
    (compiled : (history.filterMap fun d => (tools.compiler.catalog d).toOption).getLast? =
      some tools.catalog) :
    ((history ++ put.toList).filterMap fun d => (after.compiler.catalog d).toOption).getLast? =
      some after.catalog := by
  cases h with
  | kept => simpa using compiled
  | unusable bad => simpa [bad, Except.toOption] using compiled
  | replaced compiled => simp [compiled, Except.toOption]

theorem follows (h : Moved tools after put asked) {p : Published σ}
    (follows : p.Follows tools.catalog) (reaches : Peer → Bool) :
    (p.after reaches asked).Follows after.catalog := by
  cases h with
  | kept => exact follows
  | unusable bad => exact follows
  | replaced compiled => exact Published.Follows.changes follows reaches _

end Moved

end Reload

/-! ### A gateway that serves -/

/-- The scopes that were discovered last, with the number of their description. -/
structure Remembered where
  discovery : Discovery
  number : Nat
  scopes : List String

/-- A gateway while cycles run and clients ask. Descriptions are told apart by their number among
those that were put in place. -/
structure Live (σ : Type) where
  traffic : Reload.Traffic
  published : Published σ
  history : List Document
  remembered : Option Remembered

namespace Live

/-- Serving begins with the scopes of the first description. -/
def begin (g : Gateway σ) : Live σ where
  traffic := .idle g.tools
  published := g.published
  history := [g.tools.registry.document]
  remembered := g.discovery.map fun c => ⟨c, 1, c.discover g.tools.registry.document⟩

/-- Looks the scopes up: the remembered ones when they are those of the current description, else
they are discovered anew. -/
def scopes (l : Live σ) : Option (List String) × Live σ :=
  match l.remembered with
  | none => (none, l)
  | some r =>
    if r.number = l.history.length then (some r.scopes, l)
    else
      let scopes := r.discovery.discover l.traffic.document
      (some scopes, { l with remembered := some ⟨r.discovery, l.history.length, scopes⟩ })

/-- What clients are shown: the tools and the scopes, as JSON. -/
def shown (l : Live σ) : Json × Live σ :=
  let (scopes, after) := l.scopes
  (.object [("tools", .arr l.published.listing), ("scopes", .orNull (scopes.map Json.strings))],
    after)

/-- What can happen: a cycle moves, while some connections can be reached, or a client asks. -/
inductive Event where
  | moved (m : Reload.Move) (reaches : Peer → Bool)
  | asked

def step (l : Live σ) : Event → Live σ
  | .moved m reaches =>
    { l with
      traffic := l.traffic.move m
      published := l.published.after reaches (l.traffic.asks m)
      history := l.history ++ (l.traffic.puts m).toList }
  | .asked => l.shown.2

def run (l : Live σ) (events : List Event) : Live σ := events.foldl step l

/-! ### What is kept -/

/-- The catalogs of the descriptions that were put in place and compile. -/
def catalogs (l : Live σ) : List Catalog :=
  l.history.filterMap fun d => (l.traffic.shared.tools.compiler.catalog d).toOption

/-- The scopes that are remembered are those of the description with their number. -/
def Recalls (c : Discovery) (history : List Document) (r : Remembered) : Prop :=
  r.discovery = c ∧ r.number ≤ history.length ∧
    (r.number = history.length → history.getLast?.map c.discover = some r.scopes)

/-- What holds while a gateway serves that was set up with some discovery of scopes. -/
structure Sound (discovery : Option Discovery) (l : Live σ) : Prop where
  accounted : l.traffic.Kept (fun _ => True) Reload.Flight.Accounted
  current : l.history.getLast? = some l.traffic.document
  compiled : l.catalogs.getLast? = some l.traffic.shared.tools.catalog
  distinct : l.published.names.Nodup
  follows : l.published.Follows l.traffic.shared.tools.catalog
  remembered : Option.Rel (fun c r => Recalls c l.history r) discovery l.remembered

end Live

theorem Published.nodup_names_apply {p : Published σ} (h : p.names.Nodup) (reaches : Peer → Bool)
    (c : Change) : (p.apply reaches c).2.names.Nodup := by
  cases c with
  | add t => exact nodup_names_put h
  | remove name => exact h.sublist (List.filter_sublist.map _)
  | notify => exact h

theorem Published.nodup_names_after {p : Published σ} (h : p.names.Nodup) (reaches : Peer → Bool)
    (changes : List Change) : (p.after reaches changes).names.Nodup := by
  induction changes generalizing p with
  | nil => exact h
  | cons c changes ih =>
    rw [after_cons]
    exact ih (nodup_names_apply h reaches c)

namespace Live

variable {discovery : Option Discovery} {l : Live σ}

/-- Scopes stay remembered while other descriptions are put in place. -/
theorem Recalls.append {c : Discovery} {history : List Document} {r : Remembered}
    (h : Recalls c history r) (put : Option Document) : Recalls c (history ++ put.toList) r := by
  cases put with
  | none => simpa using h
  | some d =>
    obtain ⟨same, before, -⟩ := h
    refine ⟨same, ?_, ?_⟩
    · simp only [Option.toList_some, List.length_append, List.length_singleton]
      omega
    · intro now
      simp only [Option.toList_some, List.length_append, List.length_singleton] at now
      omega

theorem Sound.moved (h : l.Sound discovery) (m : Reload.Move) (reaches : Peer → Bool) :
    (l.step (.moved m reaches)).Sound discovery := by
  obtain ⟨traffic, published, history, remembered⟩ := l
  obtain ⟨accounted, current, compiled, distinct, follows, recalls⟩ := h
  have spec := Reload.Traffic.move_spec accounted m
  have recalls' : Option.Rel (fun c r => Recalls c (history ++ (traffic.puts m).toList) r)
      discovery remembered := by
    cases recalls with
    | none => exact .none
    | some r => exact .some (r.append _)
  exact ⟨accounted.move_accounted m, spec.current current, spec.compiled compiled,
    Published.nodup_names_after distinct reaches _, spec.follows follows reaches, recalls'⟩

/-- Asking gives the scopes of the current description, and keeps what holds. -/
theorem Sound.scopes (h : l.Sound discovery) :
    l.scopes.1 = discovery.map (·.discover l.traffic.document) ∧ l.scopes.2.Sound discovery := by
  obtain ⟨traffic, published, history, remembered⟩ := l
  obtain ⟨accounted, current, compiled, distinct, follows, recalls⟩ := h
  cases recalls with
  | none => exact ⟨rfl, accounted, current, compiled, distinct, follows, .none⟩
  | @some c r recalls =>
    obtain ⟨rfl, before, now⟩ := recalls
    unfold Live.scopes
    by_cases same : r.number = history.length
    · dsimp only
      rw [if_pos same]
      refine ⟨?_, accounted, current, compiled, distinct, follows, .some ⟨rfl, before, now⟩⟩
      have found := now same
      rw [current, Option.map_some] at found
      exact found.symm
    · dsimp only
      rw [if_neg same]
      refine ⟨rfl, accounted, current, compiled, distinct, follows, .some ⟨rfl, ?_, ?_⟩⟩
      · exact Nat.le_refl _
      · intro _
        show Option.map _ history.getLast? = _
        rw [current]
        rfl

theorem Sound.step (h : l.Sound discovery) (e : Event) : (l.step e).Sound discovery := by
  cases e with
  | moved m reaches => exact h.moved m reaches
  | asked => exact h.scopes.2

theorem Sound.run (h : l.Sound discovery) (events : List Event) :
    (l.run events).Sound discovery := by
  induction events generalizing l with
  | nil => exact h
  | cons e events ih => exact ih (h.step e)

/-! ### Which description the tools belong to -/

/-- The gateway at a moment. -/
def gateway (l : Live σ) (g : Gateway σ) : Gateway σ :=
  { g with tools := l.traffic.shared.tools, published := l.published }

end Live

namespace Live.Sample

open Gateway.Sample (world silent)

/-- A description with one operation, for which one scope is needed. -/
def guarded (version scope name : String) : Json :=
  .object [("openapi", .str "3.0"), ("info", .object [("version", .str version)]),
    ("paths", .object [("/a", .object [("get",
      .object [("operationId", .str name), ("x-scopes", .str scope)])])])]

/-- Settings with which scopes are discovered. -/
def settings : GatewaySettings :=
  { Gateway.Sample.settings with
    engine := { Gateway.Sample.settings.engine with
      scopes := { ScopeSettings.usual with enabled := true, extensions := "x-scopes" } } }

/-- A cycle of one attempt that finds a description. -/
def found (v : Json) : List Event :=
  [.moved (.start 1) fun _ => true, .moved (.event 0 (.fetched (world v))) fun _ => true]

/-- What is shown after a cycle that finds a description that needs another scope and does not
compile. -/
def after (g : Gateway Unit) : Live Unit := (begin g).run (found (guarded "2" "admin" "-"))

end Live.Sample

end ToolGateway
