import Mathlib.Algebra.Field.Rat
import Mathlib.Algebra.Order.BigOperators.Group.Finset
import Mathlib.Algebra.Order.Field.Basic
import Mathlib.Algebra.Order.Ring.Rat
import Mathlib.NumberTheory.Harmonic.Defs
import Mathlib.Tactic.Ring
import ToolGateway.Proofs.Scope.Cover

/-!
# How small a cover is

A cover need not be smallest, but it is not much larger. Let a set of scopes hit all groups. Its
scopes share the groups that are left, so the scope that is taken has its part of them, and more
(`length_le_card_mul`). Taking it therefore costs no more than one for each scope of the set, divided
among the groups it covers: the harmonic number of the groups falls by enough to pay for it
(`Greedy.length_le`). So a cover of `n` groups has at most `harmonic n` times as many scopes as any
set that hits them (`cover_length_le`).
-/

namespace ToolGateway.Scope

variable {groups : List (List String)} {scopes : List String} {hitting : Finset String}

/-! ### Shares of the groups -/

theorem groupsWith_cons (s : String) (g : List String) (groups : List (List String)) :
    groupsWith s (g :: groups) = (if s ∈ g then 1 else 0) + groupsWith s groups := by
  rw [groupsWith, List.filter_cons]
  simp only [List.contains_iff_mem]
  split
  · rw [List.length_cons, Nat.add_comm]
    rfl
  · exact (Nat.zero_add _).symm

/-- Every group is counted for a scope of a set that hits it. -/
theorem length_le_sum (hits : ∀ g ∈ groups, ∃ s ∈ hitting, s ∈ g) :
    groups.length ≤ ∑ s ∈ hitting, groupsWith s groups := by
  induction groups with
  | nil => exact Nat.zero_le _
  | cons g groups ih =>
    obtain ⟨t, ht, htg⟩ := hits g List.mem_cons_self
    have here : 1 ≤ ∑ s ∈ hitting, if s ∈ g then 1 else 0 := by
      calc 1 = if t ∈ g then 1 else 0 := (if_pos htg).symm
        _ ≤ ∑ s ∈ hitting, if s ∈ g then 1 else 0 :=
          Finset.single_le_sum (f := fun s => if s ∈ g then 1 else 0)
            (fun _ _ => Nat.zero_le _) ht
    have there := ih fun h hh => hits h (List.mem_cons_of_mem g hh)
    simp only [groupsWith_cons, Finset.sum_add_distrib, List.length_cons]
    omega

/-- When no scope is in more than `most` groups, a set needs a scope for each `most` of them. -/
theorem length_le_card_mul {most : Nat} (hits : ∀ g ∈ groups, ∃ s ∈ hitting, s ∈ g)
    (bound : ∀ s, groupsWith s groups ≤ most) : groups.length ≤ hitting.card * most := by
  calc groups.length ≤ ∑ s ∈ hitting, groupsWith s groups := length_le_sum hits
    _ ≤ hitting.card • most := Finset.sum_le_card_nsmul hitting _ most fun s _ => bound s
    _ = hitting.card * most := by rw [nsmul_eq_mul, Nat.cast_id]

theorem Foremost.groupsWith_le {s : String} (h : Foremost groups s) (t : String) :
    groupsWith t groups ≤ groupsWith s groups := by
  rcases h.2 t with less | ⟨same, -⟩
  · exact less.le
  · exact same.le

/-! ### Paying for the scopes -/

/-- From `left` to `left + more` the harmonic number grows by at least `more` of the least step. -/
theorem div_le_harmonic_sub (left more : Nat) :
    (more : ℚ) / (left + more : ℕ) ≤ harmonic (left + more) - harmonic left := by
  have steps : harmonic (left + more) - harmonic left =
      ∑ i ∈ Finset.range more, ((left + i + 1 : ℕ) : ℚ)⁻¹ :=
    sub_eq_of_eq_add' (Finset.sum_range_add (fun i : ℕ => ((i + 1 : ℕ) : ℚ)⁻¹) left more)
  have least : ∀ i ∈ Finset.range more,
      ((left + more : ℕ) : ℚ)⁻¹ ≤ ((left + i + 1 : ℕ) : ℚ)⁻¹ := by
    intro i hi
    have := Finset.mem_range.mp hi
    apply inv_anti₀
    · exact_mod_cast Nat.succ_pos _
    · exact_mod_cast (by omega : left + i + 1 ≤ left + more)
  rw [steps, div_eq_mul_inv, ← nsmul_eq_mul]
  calc more • ((left + more : ℕ) : ℚ)⁻¹
      = (Finset.range more).card • ((left + more : ℕ) : ℚ)⁻¹ := by rw [Finset.card_range]
    _ ≤ ∑ i ∈ Finset.range more, ((left + i + 1 : ℕ) : ℚ)⁻¹ :=
      Finset.card_nsmul_le_sum _ _ _ least

/-- Taking the foremost scope is paid for by the fall of the harmonic number. -/
theorem one_le_mul_harmonic_sub {s : String} (h : Foremost groups s)
    (hits : ∀ g ∈ groups, ∃ s ∈ hitting, s ∈ g) :
    1 ≤ (hitting.card : ℚ) * (harmonic groups.length - harmonic (without s groups).length) := by
  have split := groupsWith_add_length_without s groups
  have share := length_le_card_mul hits h.groupsWith_le
  have fall := div_le_harmonic_sub (without s groups).length (groupsWith s groups)
  rw [Nat.add_comm, split] at fall
  have filled : (0 : ℚ) < groups.length := by
    have := h.1
    exact_mod_cast (by omega : 0 < groups.length)
  have share : (groups.length : ℚ) ≤ hitting.card * groupsWith s groups := by exact_mod_cast share
  calc (1 : ℚ) ≤ hitting.card * groupsWith s groups / groups.length := (one_le_div filled).mpr share
    _ = hitting.card * (groupsWith s groups / groups.length) := mul_div_assoc _ _ _
    _ ≤ hitting.card * (harmonic groups.length - harmonic (without s groups).length) :=
      mul_le_mul_of_nonneg_left fall (Nat.cast_nonneg _)

/-- The foremost scopes that cover groups are not many more than those of a set that hits them. -/
theorem Greedy.length_le (h : Greedy groups scopes) (hits : ∀ g ∈ groups, ∃ s ∈ hitting, s ∈ g) :
    (scopes.length : ℚ) ≤ harmonic groups.length * hitting.card := by
  induction h with
  | done => simp
  | @pick groups s scopes foremost _ ih =>
    have rest := ih fun g hg => hits g (mem_without.mp hg).1
    have first := one_le_mul_harmonic_sub foremost hits
    calc ((s :: scopes).length : ℚ)
        = scopes.length + 1 := by rw [List.length_cons, Nat.cast_add_one]
      _ ≤ harmonic (without s groups).length * hitting.card +
          hitting.card * (harmonic groups.length - harmonic (without s groups).length) :=
        add_le_add rest first
      _ = harmonic groups.length * hitting.card := by ring

/-! ### Covers -/

theorem length_setOf_le (scopes : List String) : (setOf scopes).length ≤ scopes.length := by
  have nodup : (setOf scopes).Nodup := (pairwise_setOf scopes).imp fun h => h.ne
  have subset : setOf scopes ⊆ scopes := fun s hs => mem_setOf.mp hs
  exact (List.subperm_of_subset nodup subset).length_le

/-- As many groups are covered as there are that are not empty. -/
theorem length_requirements (groups : List (List String)) :
    (requirements groups).length = (groups.filter (!·.isEmpty)).length := by
  have same : ∀ g : List String, (setOf g).isEmpty = g.isEmpty := by
    intro g
    cases g with
    | nil => rfl
    | cons s g => simpa using setOf_ne_nil (List.cons_ne_nil s g)
  rw [requirements, List.filter_map, List.length_map]
  simp only [Function.comp_def, same]

/-- A cover has no scope twice, and its scopes are at most the harmonic number of the groups that are
not empty times as many as those of any set with a scope of each. -/
theorem cover_length_le (groups : List (List String)) (hitting : Finset String)
    (hits : ∀ g ∈ groups, g ≠ [] → ∃ s ∈ hitting, s ∈ g) :
    (cover groups).Nodup ∧ ((cover groups).length : ℚ) ≤
      harmonic (groups.filter (!·.isEmpty)).length * hitting.card := by
  obtain ⟨scopes, greedy, same⟩ := cover_greedy groups
  have hits' : ∀ g ∈ requirements groups, ∃ s ∈ hitting, s ∈ g := by
    intro g hg
    have filled := ne_nil_of_mem_requirements hg
    obtain ⟨g', hg', rfl⟩ := exists_of_mem_requirements hg
    obtain ⟨s, hs, hsg⟩ := hits g' hg' (by rintro rfl; exact filled rfl)
    exact ⟨s, hs, mem_setOf.mpr hsg⟩
  rw [same, ← length_requirements]
  refine ⟨(pairwise_setOf scopes).imp fun h => h.ne, ?_⟩
  calc ((setOf scopes).length : ℚ) ≤ scopes.length := by exact_mod_cast length_setOf_le scopes
    _ ≤ harmonic (requirements groups).length * hitting.card := greedy.length_le hits'

/-- Two scopes would do for these groups, and the cover has three. -/
theorem cover_length_le_three :
    (∀ g ∈ [["b"], ["a", "b"], ["b", "a"], ["c"], ["a", "c"], [], ["c", "a"]], g ≠ [] →
      ∃ s ∈ ({"b", "c"} : Finset String), s ∈ g) ∧
    cover [["b"], ["a", "b"], ["b", "a"], ["c"], ["a", "c"], [], ["c", "a"]] = ["a", "b", "c"] ∧
    (3 : ℚ) ≤ harmonic 6 * 2 := by
  have hits : ∀ g ∈ [["b"], ["a", "b"], ["b", "a"], ["c"], ["a", "c"], [], ["c", "a"]], g ≠ [] →
      ∃ s ∈ ({"b", "c"} : Finset String), s ∈ g := by decide
  have three : cover [["b"], ["a", "b"], ["b", "a"], ["c"], ["a", "c"], [], ["c", "a"]] =
      ["a", "b", "c"] := by decide +kernel
  have bound := (cover_length_le _ _ hits).2
  rw [three] at bound
  exact ⟨hits, three, bound⟩

end ToolGateway.Scope
