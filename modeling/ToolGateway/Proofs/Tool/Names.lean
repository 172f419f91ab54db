import Mathlib.Data.List.Perm.Subperm
import ToolGateway.Proofs.Except
import ToolGateway.Proofs.Published
import ToolGateway.Settings.Basic
import ToolGateway.Toolset

/-!
# Names of published tools

A catalog holds one tool for each operation, named as the naming says, and nothing keeps two
operations from getting one name. Published tools have each name once, and the last tool of a name
takes the place of those before it. So there are as many published tools as operations exactly when
the names of the catalog are pairwise distinct (`published_names_of_catalog`).
-/

namespace ToolGateway

variable {σ : Type}

/-! ### The tools of a catalog -/

/-- An operation of a description knows it. -/
theorem Operation.document_of_mem_all {d : Document} {op : Operation} (h : op ∈ Operation.all d) :
    op.document = d := by
  unfold Operation.all at h
  split at h
  · cases h
  · obtain ⟨⟨path, item⟩, -, h⟩ := List.mem_flatMap.mp h
    dsimp only at h
    split at h
    · obtain ⟨method, -, h⟩ := List.mem_filterMap.mp h
      split at h
      · cases h
        rfl
      · cases h
    · cases h

/-- The tool of an operation carries that operation and is named after it. -/
theorem Compiler.tool_spec {c : Compiler} {op : Operation} {t : Tool} (h : c.tool op = .ok t) :
    t.operation = op ∧ c.naming.name op = .ok t.name := by
  unfold Compiler.tool at h
  cases hn : c.naming.name op with
  | error e =>
    rw [hn] at h
    cases h
  | ok name =>
    simp only [hn] at h
    split at h
    · cases h
      exact ⟨rfl, rfl⟩
    · cases h
      exact ⟨rfl, rfl⟩
    · cases h

/-- The tools of a catalog carry the description that it was compiled from. -/
theorem Compiler.document_of_mem {c : Compiler} {d : Document} {catalog : Catalog}
    (h : c.catalog d = .ok catalog) {t : Tool} (ht : t ∈ catalog) : t.operation.document = d := by
  obtain ⟨op, hop, made⟩ := Except.exists_mem_of_mapM h ht
  rw [(Compiler.tool_spec made).1]
  exact Operation.document_of_mem_all hop

/-! ### The names that are published -/

namespace Published

theorem mem_names_put {new : Publication σ} {es : List (Publication σ)} {name : String} :
    name ∈ (put new es).map (·.tool.name) ↔
      name = new.tool.name ∨ name ∈ es.map (·.tool.name) := by
  induction es with
  | nil => simp [put]
  | cons e es ih =>
    rw [put]
    split
    · next h => simp [h]
    · simp only [List.map_cons, List.mem_cons, ih]
      exact or_left_comm

theorem nodup_names_put {new : Publication σ} {es : List (Publication σ)}
    (h : (es.map (·.tool.name)).Nodup) : ((put new es).map (·.tool.name)).Nodup := by
  induction es with
  | nil => simp [put]
  | cons e es ih =>
    rw [put]
    split
    · next he =>
      rw [List.map_cons, ← he]
      exact h
    · next he =>
      rw [List.map_cons, List.nodup_cons] at h ⊢
      refine ⟨?_, ih h.2⟩
      rw [mem_names_put]
      rintro (heq | hmem)
      · exact he heq
      · exact h.1 hmem

theorem nodup_names_addAll {p : Published σ} (h : p.names.Nodup) (tools : List Tool) :
    (p.addAll tools).names.Nodup := by
  induction tools generalizing p with
  | nil => exact h
  | cons t tools ih => exact ih (p := p.add t) (nodup_names_put h)

theorem mem_names_iff {p : Published σ} {name : String} :
    name ∈ p.names ↔ (p.get? name).isSome = true := by
  simp [names, get?, find?, List.find?_isSome]

end Published

/-- For every way of naming: a catalog has one tool for each operation, in order and named after it.
Publishing it gives each name once, to the last tool of that name, and there are as many published
tools as operations exactly when no name is repeated. -/
theorem published_names_of_catalog {c : Compiler} {d : Document} {catalog : Catalog}
    (h : c.catalog d = .ok catalog) (links : List (Link σ)) (handler : Handler σ)
    (sessions : Sessions) :
    let p := (Published.none links handler sessions).addAll catalog
    List.Forall₂ (fun op t => t.operation = op ∧ c.naming.name op = .ok t.name) (Operation.all d)
        catalog ∧
      p.names.Nodup ∧ (∀ name, p.get? name = catalog.last? name) ∧
      (p.entries.length = (Operation.all d).length ↔ (catalog.map Tool.name).Nodup) := by
  intro p
  have tools := Except.forall₂_of_mapM h
  have nodup : p.names.Nodup :=
    Published.nodup_names_addAll (show (Published.none links handler sessions).names.Nodup from .nil)
      catalog
  have found : ∀ name, p.get? name = catalog.last? name := by
    intro name
    rw [Published.get?_addAll, Published.get?_none, Option.or_none]
  have mem : ∀ name, name ∈ p.names ↔ name ∈ catalog.map Tool.name := by
    intro name
    rw [Published.mem_names_iff, found, ← Option.ne_none_iff_isSome, Ne,
      Catalog.last?_eq_none_iff]
    simp
  have length : p.entries.length = p.names.length := (List.length_map _).symm
  refine ⟨tools.imp fun op t ht => Compiler.tool_spec ht, nodup, found, ?_⟩
  rw [length, tools.length_eq, ← List.length_map (f := Tool.name)]
  constructor
  -- Distinct names inside as many names are all of them, so those are distinct, too.
  · intro heq
    have sub : p.names.Subperm (catalog.map Tool.name) :=
      List.subperm_of_subset nodup fun name hname => (mem name).mp hname
    exact (sub.perm_of_length_le (Nat.le_of_eq heq.symm)).nodup_iff.mp nodup
  · intro hn
    exact ((List.perm_ext_iff_of_nodup nodup hn).mpr mem).length_eq

/-! ### A name that is given twice -/

namespace Compiler

/-- The usual way to make tools. -/
def usual : Compiler := ⟨.usual, .usual, true⟩

/-- Two operations whose identifiers differ in a sign that is no letter and no digit. -/
def lookalikes : Document :=
  ⟨.object [("paths", .object [("/a", .object [("get", .object [("operationId", .str "a-b")])]),
    ("/b", .object [("get", .object [("operationId", .str "a_b")])])])]⟩

/-- Nothing published, for calls that are never made. -/
def unpublished : Published Unit := .none [] (fun _ _ _ => pure default) .stateless

theorem exists_lookalikes : ∃ catalog, usual.catalog lookalikes = .ok catalog ∧
    (catalog.map Tool.name == ["a_b", "a_b"] &&
      (unpublished.addAll catalog).entries.length == 1) = true :=
  Except.exists_of_any (by decide +kernel)

end Compiler

/-- The statement where two operations get one name. -/
theorem published_names_of_lookalikes :
    ∃ catalog, Compiler.usual.catalog Compiler.lookalikes = .ok catalog ∧
      let p := Compiler.unpublished.addAll catalog
      List.Forall₂ (fun op t => t.operation = op ∧ Compiler.usual.naming.name op = .ok t.name)
          (Operation.all Compiler.lookalikes) catalog ∧
        p.names.Nodup ∧ (∀ name, p.get? name = catalog.last? name) ∧
        (p.entries.length = (Operation.all Compiler.lookalikes).length ↔
          (catalog.map Tool.name).Nodup) := by
  obtain ⟨catalog, h, -⟩ := Compiler.exists_lookalikes
  exact ⟨catalog, h, published_names_of_catalog h [] _ .stateless⟩

/-- With the usual naming, which is accepted, a catalog can give one name to two operations, and then
fewer tools are published than there are operations. -/
theorem catalog_repeats_name :
    ∃ (d : Document) (catalog : Catalog), Compiler.usual.naming.check = .ok Compiler.usual.naming ∧
      Compiler.usual.catalog d = .ok catalog ∧ ¬ (catalog.map Tool.name).Nodup ∧
      (Compiler.unpublished.addAll catalog).entries.length < (Operation.all d).length := by
  obtain ⟨catalog, h, found⟩ := Compiler.exists_lookalikes
  simp only [Bool.and_eq_true, beq_iff_eq] at found
  obtain ⟨names, length⟩ := found
  have two : (Operation.all Compiler.lookalikes).length = 2 := by decide +kernel
  refine ⟨Compiler.lookalikes, catalog, rfl, h, ?_, ?_⟩
  · simp [names]
  · rw [length, two]
    exact Nat.lt_succ_self 1

end ToolGateway
