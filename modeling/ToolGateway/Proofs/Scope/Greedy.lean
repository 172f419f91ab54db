import Mathlib.Data.List.Sort
import ToolGateway.Proofs.Text.Utf8
import ToolGateway.Scope.Cover

/-!
# Covers by the foremost scope

A cover is found by taking, again and again, the scope that is in the most groups which are not
covered yet; of several such scopes the one with the least bytes. `Greedy` says so of a list of
scopes. There is one such list (`Greedy.unique`), `picks` finds it (`greedy_picks`), and it does not
depend on the order of the groups (`Greedy.perm`).
-/

namespace ToolGateway.Scope

variable {s t : String} {set scopes : List String} {groups others : List (List String)}

/-! ### Sets -/

theorem mem_insert : t ∈ insert s set ↔ t = s ∨ t ∈ set := by
  induction set with
  | nil => simp [insert]
  | cons u rest ih =>
    rw [insert]
    split
    · rw [List.mem_cons]
    · split
      · next h => simp [h]
      · rw [List.mem_cons, List.mem_cons, ih, or_left_comm]

theorem mem_insertAll : t ∈ insertAll set scopes ↔ t ∈ set ∨ t ∈ scopes := by
  unfold insertAll
  induction scopes generalizing set with
  | nil => simp
  | cons s scopes ih => rw [List.foldl_cons, ih, mem_insert, List.mem_cons, or_assoc, or_left_comm]

theorem mem_setOf : t ∈ setOf scopes ↔ t ∈ scopes := by
  rw [setOf, mem_insertAll]
  simp

theorem pairwise_insert (h : set.Pairwise (· < ·)) : (insert s set).Pairwise (· < ·) := by
  induction set with
  | nil => exact List.pairwise_singleton _ _
  | cons u rest ih =>
    obtain ⟨hu, hrest⟩ := List.pairwise_cons.mp h
    rw [insert]
    split
    · next hlt =>
      refine List.pairwise_cons.mpr ⟨?_, h⟩
      intro v hv
      rcases List.mem_cons.mp hv with rfl | hv
      · exact hlt
      · exact hlt.trans (hu v hv)
    · split
      · exact h
      · next hlt hne =>
        refine List.pairwise_cons.mpr ⟨?_, ih hrest⟩
        intro v hv
        rcases mem_insert.mp hv with rfl | hv
        · exact lt_of_le_of_ne (not_lt.mp hlt) (Ne.symm hne)
        · exact hu v hv

theorem pairwise_insertAll (h : set.Pairwise (· < ·)) :
    (insertAll set scopes).Pairwise (· < ·) := by
  unfold insertAll
  induction scopes generalizing set with
  | nil => exact h
  | cons s scopes ih => exact ih (pairwise_insert h)

theorem pairwise_setOf (scopes : List String) : (setOf scopes).Pairwise (· < ·) :=
  pairwise_insertAll .nil

/-- A set is told by its members. -/
theorem setOf_eq_setOf {xs ys : List String} (h : ∀ s, s ∈ xs ↔ s ∈ ys) : setOf xs = setOf ys := by
  refine (pairwise_setOf xs).eq_of_mem_iff (pairwise_setOf ys) ?_
  intro s
  rw [mem_setOf, mem_setOf]
  exact h s

theorem setOf_ne_nil (h : scopes ≠ []) : setOf scopes ≠ [] := by
  obtain ⟨s, hs⟩ := List.exists_mem_of_ne_nil scopes h
  exact List.ne_nil_of_mem (mem_setOf.mpr hs)

/-! ### Groups with a scope -/

theorem groupsWith_pos_iff : 0 < groupsWith s groups ↔ ∃ g ∈ groups, s ∈ g := by
  simp [groupsWith, List.length_pos_iff_exists_mem]

theorem mem_without {g : List String} : g ∈ without s groups ↔ g ∈ groups ∧ s ∉ g := by
  simp [without]

/-- Groups have a scope or they have not. -/
theorem groupsWith_add_length_without (s : String) (groups : List (List String)) :
    groupsWith s groups + (without s groups).length = groups.length := by
  rw [groupsWith, without, ← List.length_eq_length_filter_add]

theorem groupsWith_without_le (s t : String) (groups : List (List String)) :
    groupsWith t (without s groups) ≤ groupsWith t groups :=
  (List.filter_sublist.filter _).length_le

theorem groupsWith_without_self (s : String) (groups : List (List String)) :
    groupsWith s (without s groups) = 0 := by
  refine Nat.eq_zero_of_not_pos fun pos => ?_
  obtain ⟨g, hg, hs⟩ := groupsWith_pos_iff.mp pos
  exact (mem_without.mp hg).2 hs

/-- Taking a scope of some group leaves fewer groups. -/
theorem length_without_lt (h : 0 < groupsWith s groups) :
    (without s groups).length < groups.length := by
  have := groupsWith_add_length_without s groups
  omega

theorem groupsWith_perm (h : groups.Perm others) : groupsWith s groups = groupsWith s others :=
  (h.filter _).length_eq

theorem without_perm (h : groups.Perm others) : (without s groups).Perm (without s others) :=
  h.filter _

/-! ### The foremost scope -/

/-- A scope is in some group, and every other one is in fewer groups, or in as many and has no
lesser bytes. -/
def Foremost (groups : List (List String)) (s : String) : Prop :=
  0 < groupsWith s groups ∧ ∀ t, groupsWith t groups < groupsWith s groups ∨
    (groupsWith t groups = groupsWith s groups ∧ ¬ Utf8.encode t < Utf8.encode s)

theorem Foremost.unique (hs : Foremost groups s) (ht : Foremost groups t) : s = t := by
  rcases hs.2 t with hlt | ⟨heq, hge⟩
  · rcases ht.2 s with hgt | ⟨heq, -⟩
    · exact absurd hgt (Nat.lt_asymm hlt)
    · exact absurd heq.symm (Nat.ne_of_lt hlt)
  · rcases ht.2 s with hgt | ⟨-, hle⟩
    · exact absurd heq.symm (Nat.ne_of_lt hgt)
    · rw [Utf8.encode_lt_encode, not_lt] at hge hle
      exact le_antisymm hge hle

theorem Foremost.perm (hs : Foremost groups s) (h : groups.Perm others) : Foremost others s := by
  refine ⟨groupsWith_perm h ▸ hs.1, fun t => ?_⟩
  rw [← groupsWith_perm h, ← groupsWith_perm h]
  exact hs.2 t

/-- Some scopes, taken one after another while there are groups without any of them; each is the
foremost one of the groups that are left. -/
inductive Greedy : List (List String) → List String → Prop
  | done : Greedy [] []
  | pick {groups : List (List String)} {s : String} {scopes : List String}
      (foremost : Foremost groups s) (next : Greedy (without s groups) scopes) :
      Greedy groups (s :: scopes)

namespace Greedy

/-- There is one way to choose. -/
theorem unique {xs ys : List String} (h : Greedy groups xs) (h' : Greedy groups ys) : xs = ys := by
  induction h generalizing ys with
  | done =>
    cases h' with
    | done => rfl
    | pick foremost _ => exact absurd foremost.1 (Nat.lt_irrefl 0)
  | pick foremost _ ih =>
    cases h' with
    | done => exact absurd foremost.1 (Nat.lt_irrefl 0)
    | pick foremost' next =>
      obtain rfl := foremost.unique foremost'
      rw [ih next]

theorem perm (h : Greedy groups scopes) (hp : groups.Perm others) : Greedy others scopes := by
  induction h generalizing others with
  | done =>
    rw [← hp.nil_eq]
    exact .done
  | pick foremost _ ih => exact .pick (foremost.perm hp) (ih (without_perm hp))

/-- Every group has one of the scopes. -/
theorem exists_mem (h : Greedy groups scopes) {g : List String} (hg : g ∈ groups) :
    ∃ s ∈ scopes, s ∈ g := by
  induction h with
  | done => cases hg
  | @pick groups s scopes _ _ ih =>
    by_cases hs : s ∈ g
    · exact ⟨s, List.mem_cons_self, hs⟩
    · obtain ⟨t, ht, htg⟩ := ih (mem_without.mpr ⟨hg, hs⟩)
      exact ⟨t, List.mem_cons_of_mem s ht, htg⟩

/-- Every one of the scopes is in some group. -/
theorem exists_group (h : Greedy groups scopes) (hs : s ∈ scopes) : ∃ g ∈ groups, s ∈ g := by
  induction h with
  | done => cases hs
  | pick foremost _ ih =>
    rcases List.mem_cons.mp hs with rfl | hs
    · exact groupsWith_pos_iff.mp foremost.1
    · obtain ⟨g, hg, hsg⟩ := ih hs
      exact ⟨g, (mem_without.mp hg).1, hsg⟩

end Greedy

/-! ### Finding it by counting -/

theorem best?_eq_none_iff : best? groups scopes = none ↔ scopes = [] := by
  cases scopes with
  | nil => simp [best?]
  | cons s rest =>
    rw [best?]
    split
    · simp
    · split <;> simp

/-- Of rising scopes, the first of those that are in the most groups. -/
theorem best?_spec (hr : scopes.Pairwise (· < ·)) (h : best? groups scopes = some s) :
    s ∈ scopes ∧ ∀ t ∈ scopes, groupsWith t groups < groupsWith s groups ∨
      (groupsWith t groups = groupsWith s groups ∧ s ≤ t) := by
  induction scopes generalizing s with
  | nil => cases h
  | cons u rest ih =>
    obtain ⟨hu, hrest⟩ := List.pairwise_cons.mp hr
    rw [best?] at h
    split at h
    · next hn =>
      cases h
      rw [best?_eq_none_iff.mp hn]
      simp
    · next t ht =>
      obtain ⟨mem, most⟩ := ih hrest ht
      split at h
      · next hlt =>
        cases h
        refine ⟨List.mem_cons_of_mem u mem, List.forall_mem_cons.mpr ⟨Or.inl hlt, most⟩⟩
      · next hge =>
        cases h
        refine ⟨List.mem_cons_self, List.forall_mem_cons.mpr ⟨Or.inr ⟨rfl, le_refl u⟩, ?_⟩⟩
        intro v hv
        rcases Nat.lt_or_ge (groupsWith v groups) (groupsWith u groups) with hlt | hle
        · exact Or.inl hlt
        · refine Or.inr ⟨?_, (hu v hv).le⟩
          rcases most v hv with hlt | ⟨heq, -⟩ <;> omega

theorem foremost_of_best? (h : best? groups (setOf groups.flatten) = some s) :
    Foremost groups s := by
  obtain ⟨mem, most⟩ := best?_spec (pairwise_setOf _) h
  rw [mem_setOf, List.mem_flatten] at mem
  have pos := groupsWith_pos_iff.mpr mem
  refine ⟨pos, fun t => ?_⟩
  rcases Nat.eq_zero_or_pos (groupsWith t groups) with hz | ht
  · exact Or.inl (hz ▸ pos)
  · have : t ∈ setOf groups.flatten := by
      rw [mem_setOf, List.mem_flatten]
      exact groupsWith_pos_iff.mp ht
    rcases most t this with hlt | ⟨heq, hle⟩
    · exact Or.inl hlt
    · refine Or.inr ⟨heq, ?_⟩
      rw [Utf8.encode_lt_encode, not_lt]
      exact hle

/-- Counting anew finds the foremost scopes of groups that are not empty. -/
theorem greedy_picks (h : ∀ g ∈ groups, g ≠ []) : Greedy groups (picks groups) := by
  induction groups using picks.induct with
  | case1 groups hb =>
    have none : groups = [] := by
      refine List.eq_nil_iff_forall_not_mem.mpr fun g hg => ?_
      obtain ⟨s, hs⟩ := List.exists_mem_of_ne_nil g (h g hg)
      have : s ∈ setOf groups.flatten := mem_setOf.mpr (List.mem_flatten.mpr ⟨g, hg, hs⟩)
      rw [best?_eq_none_iff.mp hb] at this
      cases this
    rw [picks, hb, none]
    exact .done
  | case2 groups s hb hlt ih =>
    rw [picks, hb]
    dsimp only
    rw [if_pos hlt]
    exact .pick (foremost_of_best? hb) (ih fun g hg => h g (mem_without.mp hg).1)
  | case3 groups s hb hge => exact absurd (length_without_lt (foremost_of_best? hb).1) hge

end ToolGateway.Scope
