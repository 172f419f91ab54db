import ToolGateway.Gateway
import ToolGateway.Proofs.Except
import ToolGateway.Proofs.Published
import ToolGateway.Proofs.Reload.Run

/-!
# Published tools in step with the catalog

The catalog of a gateway and its published tools are changed at different places: a cycle replaces
the catalog, and the published tools are changed by a difference of two catalogs. They stay in step:
under each name stands a tool exactly when the catalog has one of that name, and it looks like the
last of them (`published_in_step`).
-/

namespace ToolGateway

variable {σ : Type}

/-! ### Definitions that look alike -/

/-- Two definitions that clients cannot tell apart: one and the same, or equal up to the order of
members. -/
def Definition.Alike (a b : Definition) : Prop := a = b ∨ a.same b = true

theorem Definition.same_trans {a b c : Definition} (hab : a.same b = true)
    (hbc : b.same c = true) : a.same c = true := by
  simp only [Definition.same, Bool.and_eq_true, beq_iff_eq] at *
  obtain ⟨⟨⟨hn, ht⟩, hd⟩, hs⟩ := hab
  obtain ⟨⟨⟨hn', ht'⟩, hd'⟩, hs'⟩ := hbc
  exact ⟨⟨⟨hn.trans hn', ht.trans ht'⟩, hd.trans hd'⟩, Json.same_trans hs hs'⟩

theorem Definition.Alike.trans_same {a b c : Definition} (hab : a.Alike b)
    (hbc : b.same c = true) : a.Alike c := by
  rcases hab with rfl | hab
  · exact Or.inr hbc
  · exact Or.inr (Definition.same_trans hab hbc)

/-- The published tools follow a catalog: under each name, a tool stands exactly when the catalog
has one, and it looks like the last of them. -/
def Published.Follows (p : Published σ) (c : Catalog) : Prop :=
  ∀ name, Option.Rel (fun t u : Tool => t.definition.Alike u.definition) (p.get? name)
    (c.last? name)

/-! ### Differences of catalogs -/

namespace Diff

variable {before after : Catalog} {name : String}

theorem mem_removed_iff :
    name ∈ (between before after).removed ↔
      (∃ t ∈ before, t.name = name) ∧ after.last? name = none := by
  simp [between]

theorem mem_upserted_iff :
    name ∈ (between before after).upserted ↔
      ∃ t ∈ after, isKept before t = false ∧ t.name = name := by
  simp [between, and_assoc]

/-- In a catalog without repeated names, the names in a difference are those of the tools that look
different. -/
theorem mem_upserted_iff_of_nodup (hn : (after.map Tool.name).Nodup) {t : Tool} (ht : t ∈ after) :
    t.name ∈ (between before after).upserted ↔ isKept before t = false := by
  rw [mem_upserted_iff]
  constructor
  · rintro ⟨u, hu, hk, e⟩
    have hlast := Catalog.last?_of_mem hn hu
    rw [e, Catalog.last?_of_mem hn ht] at hlast
    cases hlast
    exact hk
  · intro hk
    exact ⟨t, ht, hk, rfl⟩

theorem isKept_eq_true_iff {t : Tool} :
    isKept before t = true ↔
      ∃ u, before.last? t.name = some u ∧ u.definition.same t.definition = true := by
  simp [isKept, Option.any_eq_true]

/-- The tools that are added are all those whose name stands in the difference, also those of the
name that did not change. -/
theorem last?_added {c : Catalog} (d : Diff) (name : String) :
    Catalog.last? (c.filter fun t => d.upserted.contains t.name) name =
      if name ∈ d.upserted then c.last? name else none := by
  split
  · next h => exact Catalog.last?_filter_of_kept fun t _ e => by simpa [e] using h
  · next h => exact Catalog.last?_filter_of_dropped fun t _ e => by simpa [e] using h

end Diff

/-- What stands under the name of a new tool after the changes: the last tool of that name when one
of them looks different from before, else what stood there. -/
theorem Published.get?_after_update (reaches : Peer → Bool) (p : Published σ)
    (before after : Catalog) {name : String} {t : Tool} (ht : after.last? name = some t) :
    (p.after reaches ((Diff.between before after).changes after)).get? name =
      if name ∈ (Diff.between before after).upserted then some t else p.get? name := by
  have hr : name ∉ (Diff.between before after).removed := by
    simp [Diff.mem_removed_iff, ht]
  rw [get?_after_changes, Diff.last?_added, if_neg hr, ht]
  split <;> rfl

/-- The changes of a difference keep the published tools in step. -/
theorem Published.Follows.changes {p : Published σ} {before : Catalog} (h : p.Follows before)
    (reaches : Peer → Bool) (after : Catalog) :
    (p.after reaches ((Diff.between before after).changes after)).Follows after := by
  intro name
  cases ht : after.last? name with
  -- A name that the new catalog does not have is removed, or the old one did not have it either.
  | none =>
    have hu : name ∉ (Diff.between before after).upserted := by
      rw [Diff.mem_upserted_iff]
      rintro ⟨t, hmem, -, rfl⟩
      exact Catalog.last?_eq_none_iff.mp ht t hmem rfl
    rw [get?_after_changes, Diff.last?_added, if_neg hu]
    by_cases hr : name ∈ (Diff.between before after).removed
    · simp [hr]
    · have hb : before.last? name = Option.none := by
        rw [Catalog.last?_eq_none_iff]
        exact fun t hmem e => hr (Diff.mem_removed_iff.mpr ⟨⟨t, hmem, e⟩, ht⟩)
      have := h name
      rw [hb] at this
      cases hp : p.get? name with
      | none => simp
      | some q => rw [hp] at this; cases this
  -- A name that it has is published anew, or its last tool looks like the one that stood there.
  | some t =>
    rw [get?_after_update reaches p before after ht]
    split
    · exact .some (Or.inl rfl)
    · next hu =>
      have hk : Diff.isKept before t = true := by
        cases hk : Diff.isKept before t with
        | true => rfl
        | false =>
          exact absurd (Diff.mem_upserted_iff.mpr
            ⟨t, Catalog.mem_of_last? ht, hk, Catalog.name_of_last? ht⟩) hu
      obtain ⟨u, hu, hsame⟩ := Diff.isKept_eq_true_iff.mp hk
      rw [Catalog.name_of_last? ht] at hu
      have := h name
      rw [hu] at this
      cases hp : p.get? name with
      | none => rw [hp] at this; cases this
      | some q =>
        rw [hp] at this
        cases this with
        | some halike => exact .some (halike.trans_same hsame)

/-! ### Runs of cycles -/

namespace Gateway

/-- One reload cycle as it happens: what is around it, the connections that can be reached, and the
attempts it may make. -/
structure Round where
  surroundings : Reload.Surroundings
  reaches : Peer → Bool
  attempts : Nat

/-- Runs one cycle. -/
def next (g : Gateway σ) (r : Round) : Gateway σ :=
  (g.runCycle r.surroundings r.reaches r.attempts).2.2

/-- What comes of a cycle. -/
def outcome (g : Gateway σ) (r : Round) : ReloadOutcome :=
  (g.runCycle r.surroundings r.reaches r.attempts).1

/-- Runs cycles one after the other. -/
def runCycles (g : Gateway σ) (rounds : List Round) : Gateway σ := rounds.foldl next g

/-- The published tools of a gateway follow its catalog. -/
def InStep (g : Gateway σ) : Prop := g.published.Follows g.tools.catalog

/-- What a cycle does to the catalog and the published tools together. -/
theorem next_effect (g : Gateway σ) (r : Round) :
    ∃ changes, Reload.Effect g.tools.catalog (g.outcome r) (g.next r).tools.catalog changes ∧
      (g.next r).published = g.published.after r.reaches changes :=
  ⟨_, Reload.run_effect r.surroundings r.attempts ⟨g.tools, false⟩, rfl⟩

theorem InStep.next {g : Gateway σ} (h : g.InStep) (r : Round) : (g.next r).InStep := by
  obtain ⟨changes, effect, hp⟩ := g.next_effect r
  unfold InStep
  rw [hp]
  generalize g.outcome r = o, (g.next r).tools.catalog = catalog at effect
  cases effect with
  | kept _ => exact h
  | replaced _ => exact Published.Follows.changes h r.reaches _

theorem InStep.runCycles {g : Gateway σ} (h : g.InStep) (rounds : List Round) :
    (g.runCycles rounds).InStep := by
  induction rounds generalizing g with
  | nil => exact h
  | cons r rounds ih => exact ih (h.next r)

/-- A gateway is set up with the catalog of its description, which is published tool by tool. -/
theorem exists_addAll_of_build {w : World} {server : Server σ} {settings : GatewaySettings}
    {g : Gateway σ} (h : build w server settings = .ok g) :
    g.tools.compiler.catalog g.tools.registry.document = .ok g.tools.catalog ∧
      ∃ links handler sessions,
        g.published = (Published.none links handler sessions).addAll g.tools.catalog := by
  unfold build at h
  obtain ⟨registry, -, h⟩ := Except.ok_of_bind h
  obtain ⟨base, -, h⟩ := Except.ok_of_bind h
  obtain ⟨client, -, h⟩ := Except.ok_of_bind h
  obtain ⟨_, -, h⟩ := Except.ok_of_bind h
  simp only [Toolset.compile, Toolset.ofRegistry] at h
  cases compiled : (compiler settings.engine.tools).catalog registry.document with
  | error e => simp [compiled, bind, Except.bind] at h
  | ok catalog =>
    simp only [compiled] at h
    obtain ⟨c, hc, h⟩ := Except.ok_of_bind h
    cases hc
    cases h
    exact ⟨compiled, _, _, _, rfl⟩

/-- A gateway is set up in step. -/
theorem inStep_of_build {w : World} {server : Server σ} {settings : GatewaySettings}
    {g : Gateway σ} (h : build w server settings = .ok g) : g.InStep := by
  obtain ⟨-, links, handler, sessions, published⟩ := exists_addAll_of_build h
  intro name
  rw [published]
  simp only [Published.get?_addAll, Published.get?_none, Option.or_none]
  cases g.tools.catalog.last? name with
  | none => exact .none
  | some t => exact .some (Or.inl rfl)

/-! ### A small gateway

The statements below are tried on descriptions with nothing but `GET` operations. -/

namespace Sample

/-- A description of a version with one operation on each path, given with its identifier. -/
def description (version : String) (operations : List (String × String)) : Json :=
  .object [("openapi", .str "3.0.0"), ("info", .object [("version", .str version)]),
    ("paths", .object (operations.map fun (path, id) =>
      (path, .object [("get", .object [("operationId", .str id)])])))]

/-- A world that holds a description and nothing else. -/
def world (v : Json) : World := ⟨⟨[], [], [(["spec"], Utf8.encode v.render)]⟩, []⟩

/-- The usual settings for that description. -/
def settings : GatewaySettings where
  engine := ⟨"/spec", some (.explicit "http://h"), ClientSettings.usual, .none, .empty,
    ToolSettings.usual, ReloadSettings.usual, ScopeSettings.usual⟩
  session := .stateless

/-- A server that never answers. -/
def silent : Server Unit := fun _ => pure none

/-- A cycle of one attempt that finds a description. -/
def round (v : Json) : Round := ⟨⟨fun _ => world v, false⟩, fun _ => true, 1⟩

end Sample

end Gateway

/-! ### The main statements -/

/-- After every run of cycles, whatever they find, a tool is published under a name exactly when the
catalog has one of that name, and it looks like the last of them. -/
theorem published_in_step {w : World} {server : Server σ} {settings : GatewaySettings}
    {g : Gateway σ} (h : Gateway.build w server settings = .ok g) (rounds : List Gateway.Round)
    (name : String) :
    (((g.runCycles rounds).published.get? name).isSome = true ↔
        ∃ t ∈ (g.runCycles rounds).tools.catalog, t.name = name) ∧
      ∀ t, (g.runCycles rounds).published.get? name = some t →
        ∃ u, (g.runCycles rounds).tools.catalog.last? name = some u ∧
          t.definition.Alike u.definition := by
  have follows := (Gateway.inStep_of_build h).runCycles rounds name
  generalize (g.runCycles rounds).published.get? name = found at follows
  cases hl : (g.runCycles rounds).tools.catalog.last? name with
  | none =>
    rw [hl] at follows
    cases follows
    refine ⟨⟨?_, ?_⟩, ?_⟩
    · intro found
      cases found
    · rintro ⟨t, ht, e⟩
      exact absurd e (Catalog.last?_eq_none_iff.mp hl t ht)
    · intro t ht
      cases ht
  | some u =>
    rw [hl] at follows
    cases follows with
    | @some t _ alike =>
      refine ⟨⟨fun _ => ?_, fun _ => rfl⟩, ?_⟩
      · exact ⟨u, Catalog.mem_of_last? hl, Catalog.name_of_last? hl⟩
      · intro t' ht'
        cases ht'
        exact ⟨u, rfl, alike⟩

open Gateway in
/-- Two operations share a name at first, and the next description drops the one that was published.
-/
theorem published_in_step_repeated_name :
    ∃ g, build (Sample.world (Sample.description "1" [("/a", "x"), ("/b", "x")])) Sample.silent
        Sample.settings = .ok g ∧
      ((((g.runCycles [Sample.round (Sample.description "2" [("/a", "x")])]).published.get?
          "x").isSome = true ↔
        ∃ t ∈ (g.runCycles [Sample.round (Sample.description "2" [("/a", "x")])]).tools.catalog,
          t.name = "x") ∧
      ∀ t, (g.runCycles [Sample.round (Sample.description "2" [("/a", "x")])]).published.get? "x" =
          some t →
        ∃ u, (g.runCycles [Sample.round
            (Sample.description "2" [("/a", "x")])]).tools.catalog.last? "x" = some u ∧
          t.definition.Alike u.definition) := by
  obtain ⟨g, hg, -⟩ : ∃ g, build (Sample.world (Sample.description "1" [("/a", "x"), ("/b", "x")]))
      Sample.silent Sample.settings = .ok g ∧ true = true :=
    Except.exists_of_any (p := fun _ => true) (by decide +kernel)
  exact ⟨g, hg, published_in_step hg _ "x"⟩

end ToolGateway
