import Mathlib.Data.List.Nodup
import Mathlib.Data.List.Perm.Subperm
import Mathlib.Logic.Relation
import ToolGateway.Reference.Graph

/-!
# Numbers of components

The keys of a graph are numbered by components when keys that have a number have the same one exactly
if each leads to the other (`ReferenceGraph.Numbered`). A class of keys that have no number yet can
get the next one (`Numbered.add`).
-/

namespace ToolGateway

/-! ### Lists -/

/-- A list without repetitions that is as long as one that holds all its items holds all of that
one's items, too. -/
theorem List.subset_of_nodup_of_length_le {α : Type} {xs ys : List α} (hn : xs.Nodup)
    (hs : xs ⊆ ys) (hl : ys.length ≤ xs.length) : ys ⊆ xs :=
  ((List.subperm_of_subset hn hs).perm_of_length_le hl).symm.subset

theorem List.lookup_map_prodMk {α β : Type} [BEq α] [LawfulBEq α] (f : α → β) (a : α)
    (keys : List α) : (keys.map fun k => (k, f k)).lookup a = if a ∈ keys then some (f a) else none := by
  induction keys with
  | nil => rfl
  | cons k keys ih =>
    rw [List.map_cons, List.lookup_cons, ih]
    by_cases h : a = k
    · simp [h]
    · have hb : (a == k) = false := by simpa using h
      simp [h, hb]

theorem List.lookup_cons_of_ne {α β : Type} [BEq α] [LawfulBEq α] {a k : α} (h : a ≠ k) (b : β)
    (es : List (α × β)) : ((k, b) :: es).lookup a = es.lookup a := by
  rw [List.lookup_cons, beq_false_of_ne h]

/-- When no key comes twice, one item passes a test that only items with one key pass. -/
theorem List.exists_filter_eq_singleton {α β : Type} {key : α → Option β} {p : α → Bool}
    {l : List α} {b : β} (nodup : (l.filterMap key).Nodup)
    (same : ∀ a ∈ l, p a = true → key a = some b) (mem : ∃ a ∈ l, p a = true) :
    ∃ a, l.filter p = [a] := by
  induction l with
  | nil =>
    obtain ⟨_, ha, -⟩ := mem
    cases ha
  | cons c l ih =>
    by_cases hc : p c = true
    · have here := same c List.mem_cons_self hc
      rw [List.filterMap_cons_some here, List.nodup_cons] at nodup
      -- The key of the first one does not come again, so no other item passes the test.
      have rest : l.filter p = [] := by
        rw [List.filter_eq_nil_iff]
        intro a ha hp
        exact nodup.1 (List.mem_filterMap.mpr ⟨a, ha, same a (List.mem_cons_of_mem c ha) hp⟩)
      exact ⟨c, by rw [List.filter_cons_of_pos hc, rest]⟩
    · have later : (l.filterMap key).Nodup :=
        nodup.sublist ((List.sublist_cons_self c l).filterMap _)
      obtain ⟨a, ha, hp⟩ := mem
      have other : a ∈ l := by
        rcases List.mem_cons.mp ha with rfl | ha
        · exact absurd hp hc
        · exact ha
      rw [List.filter_cons_of_neg hc]
      exact ih later (fun a ha => same a (List.mem_cons_of_mem c ha)) ⟨a, other, hp⟩

/-! ### Where keys lead -/

namespace ReferenceGraph

/-- A key leads to another one in any number of steps. -/
def Reaches (g : ReferenceGraph) : String → String → Prop :=
  Relation.ReflTransGen fun a b => b ∈ g.next a

/-- Every edge leads to a key of the graph. -/
def Closed (g : ReferenceGraph) : Prop := ∀ a, ∀ b ∈ g.next a, b ∈ g.keys

theorem isSome_lookup_iff {α β : Type} [BEq α] [LawfulBEq α] {edges : List (α × β)} {k : α} :
    (edges.lookup k).isSome = true ↔ k ∈ edges.map (·.1) := by
  rw [List.lookup_isSome_iff, List.mem_map]
  refine exists_congr fun e => and_congr_right fun _ => ?_
  rw [beq_iff_eq, eq_comm]

/-- Where no key comes twice, what is looked up is what there is. -/
theorem lookup_eq_some_iff_mem {α : Type} {edges : List (String × α)} {k : String} {v : α}
    (nodup : (edges.map (·.1)).Nodup) : edges.lookup k = some v ↔ (k, v) ∈ edges := by
  induction edges with
  | nil => simp
  | cons e edges ih =>
    rw [List.map_cons, List.nodup_cons] at nodup
    by_cases h : k = e.1
    · have other : (e.1, v) ∉ edges := fun mem => nodup.1 (List.mem_map.mpr ⟨_, mem, rfl⟩)
      rw [h, List.lookup_cons_self, List.mem_cons, or_iff_left other, Option.some_inj, eq_comm,
        Prod.ext_iff]
      exact (and_iff_right rfl).symm
    · rw [List.lookup_cons_of_ne h, ih nodup.2, List.mem_cons, or_iff_right]
      exact fun same => h (congrArg Prod.fst same)

/-! ### Numbers of components -/

/-- Keys with the numbers of their components: a key with a number has that of all keys that it leads
to and that lead to it, and no other key has that number. -/
structure Numbered (g : ReferenceGraph) (table : List (String × Nat)) (count : Nat) : Prop where
  classes : ∀ a ∈ table.map (·.1), ∀ b,
    table.lookup b = table.lookup a ↔ g.Reaches a b ∧ g.Reaches b a
  lt : ∀ k n, table.lookup k = some n → n < count
  nodup : (table.map (·.1)).Nodup

theorem keys_block (block : List String) (n : Nat) (table : List (String × Nat)) :
    (block.map (fun k => (k, n)) ++ table).map (·.1) = block ++ table.map (·.1) := by
  rw [List.map_append, List.map_map]
  exact congrArg (· ++ _) (List.map_id block)

/-- A class of keys that have no number gets the next one. -/
theorem Numbered.add {g : ReferenceGraph} {table : List (String × Nat)} {count : Nat}
    {block : List String} (h : g.Numbered table count) (nodup : block.Nodup)
    (fresh : ∀ k ∈ block, k ∉ table.map (·.1))
    (whole : ∀ a ∈ block, ∀ b, b ∈ block ↔ g.Reaches a b ∧ g.Reaches b a) :
    g.Numbered (block.map (fun k => (k, count)) ++ table) (count + 1) := by
  have lookup : ∀ k, (block.map (fun k => (k, count)) ++ table).lookup k =
      if k ∈ block then some count else table.lookup k := by
    intro k
    rw [List.lookup_append, List.lookup_map_prodMk (fun _ => count)]
    split <;> rfl
  refine ⟨?_, ?_, ?_⟩
  · intro a ha b
    rw [keys_block, List.mem_append] at ha
    rw [lookup, lookup]
    by_cases mem : a ∈ block
    · rw [if_pos mem, ← whole a mem b]
      split
      · next hb => exact iff_of_true rfl hb
      · next hb => exact iff_of_false (fun same => absurd (h.lt b _ same) (Nat.lt_irrefl _)) hb
    · have old := ha.resolve_left mem
      rw [if_neg mem, ← h.classes a old b]
      split
      · next hb =>
        -- A key of the block had no number, and the number it gets is new.
        have none : table.lookup b = none := by
          rw [← Option.not_isSome_iff_eq_none, isSome_lookup_iff]
          exact fresh b hb
        refine iff_of_false (fun same => absurd (h.lt a _ same.symm) (Nat.lt_irrefl _)) ?_
        intro same
        rw [← isSome_lookup_iff, ← same, none] at old
        cases old
      · exact Iff.rfl
  · intro k n hk
    rw [lookup] at hk
    split at hk
    · exact Option.some.inj hk ▸ Nat.lt_succ_self _
    · exact Nat.lt_succ_of_lt (h.lt k n hk)
  · rw [keys_block, List.nodup_append]
    refine ⟨nodup, h.nodup, ?_⟩
    rintro k hk k' hk' rfl
    exact fresh k hk hk'

end ReferenceGraph

end ToolGateway
