import ToolGateway.Proofs.Reload.InStep

/-!
# What published tools call

A tool carries the operation that its calls execute. A difference of catalogs compares definitions
and nothing else, so a tool that looks as before is not published anew, and its calls keep executing
the operation of an older description. After an update every call executes the new operation exactly
when that was already so for the tools that look as before (`published_serves_iff`); a path that
changes behind an unchanged definition is enough for it to fail.
-/

namespace ToolGateway

variable {σ : Type}

/-- Two operations that lead to the same requests and promise the same answers. -/
structure Operation.SameCall (a b : Operation) : Prop where
  method : a.method = b.method
  path : a.path = b.path
  parameters : a.parameters.map (fun p => (p.name, p.declaredIn)) =
    b.parameters.map fun p => (p.name, p.declaredIn)
  media : a.jsonBody.map (·.1) = b.jsonBody.map (·.1)
  responses : a.responses = b.responses

theorem Operation.SameCall.refl (a : Operation) : a.SameCall a := ⟨rfl, rfl, rfl, rfl, rfl⟩

namespace Gateway

/-- What is published under the name of a tool calls the operation of that tool. -/
def Serves (g : Gateway σ) (t : Tool) : Prop :=
  ∃ p, g.published.get? t.name = some p ∧ p.operation.SameCall t.operation

end Gateway

/-! ### A path that changes behind an unchanged definition -/

namespace Gateway.Sample

/-- A world whose description has one operation, `GET /a`. -/
def original : World := world (description "1" [("/a", "x")])

/-- A cycle that finds the same operation on another path. -/
def moved : Round := round (description "2" [("/b", "x")])

/-- What `moved` does, computed: it counts as an update without changes, its catalog calls the new
path, and the published tool calls the old one. -/
def movedAsExpected (g : Gateway Unit) : Bool :=
  g.outcome moved == .updated 0 0 &&
    (g.next moved).tools.catalog.map (fun t => (t.name, t.operation.path)) == [("x", "/b")] &&
    ((g.next moved).published.get? "x").map (·.operation.path) == some "/a"

theorem exists_moved : ∃ g, build original silent settings = .ok g ∧ movedAsExpected g = true :=
  Except.exists_of_any (by decide +kernel)

/-- The new catalog has one tool, whose name is `x` and whose path is `/b`. -/
theorem catalog_of_moved {g : Gateway Unit} (h : movedAsExpected g = true) :
    ∃ t, (g.next moved).tools.catalog = [t] ∧ t.name = "x" ∧ t.operation.path = "/b" := by
  simp only [movedAsExpected, Bool.and_eq_true, beq_iff_eq] at h
  obtain ⟨⟨-, h⟩, -⟩ := h
  cases hc : (g.next moved).tools.catalog with
  | nil => rw [hc] at h; simp at h
  | cons t rest =>
    rw [hc] at h
    simp at h
    exact ⟨t, by rw [h.2], h.1.1, h.1.2⟩

end Gateway.Sample

/-! ### When calls keep up -/

/-- After a cycle with an update, every tool of the new catalog is served with its own operation
exactly when those that look as before were so already. -/
theorem published_serves_iff (g : Gateway σ) (r : Gateway.Round) {removed upserted : Nat}
    (hu : g.outcome r = .updated removed upserted)
    (hn : ((g.next r).tools.catalog.map Tool.name).Nodup) :
    (∀ t ∈ (g.next r).tools.catalog, (g.next r).Serves t) ↔
      ∀ t ∈ (g.next r).tools.catalog, Diff.isKept g.tools.catalog t = true → g.Serves t := by
  obtain ⟨changes, effect, hp⟩ := g.next_effect r
  have serves : ∀ t ∈ (g.next r).tools.catalog, (g.next r).Serves t ↔
      (Diff.isKept g.tools.catalog t = true → g.Serves t) := by
    intro t ht
    rw [Gateway.Serves, hp]
    generalize (g.next r).tools.catalog = catalog at effect hn ht
    rw [hu] at effect
    cases effect with
    | kept h => exact absurd rfl (h _ _)
    | replaced =>
      rw [Published.get?_after_update _ _ _ _ (Catalog.last?_of_mem hn ht)]
      have hup : t.name ∈ (Diff.between g.tools.catalog catalog).upserted ↔ _ :=
        Diff.mem_upserted_iff_of_nodup hn ht
      cases hk : Diff.isKept g.tools.catalog t with
      | true =>
        rw [if_neg (by simp [hup, hk])]
        exact ⟨fun h _ => h, fun h => h rfl⟩
      | false =>
        rw [if_pos (hup.mpr hk)]
        exact ⟨fun _ h => by simp at h, fun _ => ⟨t, rfl, .refl _⟩⟩
  exact forall₂_congr serves

open Gateway in
/-- The statement at a gateway whose operation moves to another path. -/
theorem published_serves_iff_moved :
    ∃ g, build Sample.original Sample.silent Sample.settings = .ok g ∧
      g.outcome Sample.moved = .updated 0 0 ∧
      ((g.next Sample.moved).tools.catalog.map Tool.name).Nodup ∧
      ((∀ t ∈ (g.next Sample.moved).tools.catalog, (g.next Sample.moved).Serves t) ↔
        ∀ t ∈ (g.next Sample.moved).tools.catalog,
          Diff.isKept g.tools.catalog t = true → g.Serves t) := by
  obtain ⟨g, hb, h⟩ := Sample.exists_moved
  obtain ⟨t, hc, -, -⟩ := Sample.catalog_of_moved h
  have ho : g.outcome Sample.moved = .updated 0 0 := by
    simp only [Sample.movedAsExpected, Bool.and_eq_true, beq_iff_eq] at h
    exact h.1.1
  have hn : ((g.next Sample.moved).tools.catalog.map Tool.name).Nodup := by simp [hc]
  exact ⟨g, hb, ho, hn, published_serves_iff g Sample.moved ho hn⟩

open Gateway in
/-- A path that changes behind an unchanged definition: the update leaves the tool on the old path.
-/
theorem published_calls_old_path :
    ∃ g, build Sample.original Sample.silent Sample.settings = .ok g ∧
      g.outcome Sample.moved = .updated 0 0 ∧
      ((g.next Sample.moved).tools.catalog.map Tool.name).Nodup ∧
      ∃ t ∈ (g.next Sample.moved).tools.catalog, ¬ (g.next Sample.moved).Serves t := by
  obtain ⟨g, hb, h⟩ := Sample.exists_moved
  obtain ⟨t, hc, hname, hpath⟩ := Sample.catalog_of_moved h
  simp only [Sample.movedAsExpected, Bool.and_eq_true, beq_iff_eq] at h
  refine ⟨g, hb, h.1.1, by simp [hc], t, by simp [hc], ?_⟩
  rintro ⟨p, hp, same⟩
  have old := h.2
  rw [← hname, hp] at old
  simp [same.path, hpath] at old

end ToolGateway
