import Mathlib.Logic.Relation
import ToolGateway.Proofs.Scope.Greedy

/-!
# Counting when it matters

The counts in the queue of a search are those of some time before, so they are never too low, and
the foremost candidate is the foremost scope as soon as its count still holds. This is what one step
keeps (`Search.Sound.step`), and so the search takes the foremost scopes one after another until
every group is covered (`Search.run_spec`). The cover is the one that is found by counting anew every
time, and nothing of it depends on the order in which groups and scopes are given (`cover_spec`).
-/

namespace ToolGateway.Scope

variable {groups others : List (List String)}

/-! ### Queues -/

theorem Candidate.before_iff {c d : Candidate} :
    c.before d = true ↔ d.count < c.count ∨ (c.count = d.count ∧ c.scope < d.scope) := by
  simp [before]

theorem perm_enqueue (c : Candidate) (queue : List Candidate) :
    (enqueue c queue).Perm (c :: queue) := by
  induction queue with
  | nil => exact .refl _
  | cons d rest ih =>
    rw [enqueue]
    split
    · exact .refl _
    · exact (ih.cons d).trans (.swap c d rest)

theorem mem_enqueue {c d : Candidate} {queue : List Candidate} :
    d ∈ enqueue c queue ↔ d = c ∨ d ∈ queue := by
  rw [(perm_enqueue c queue).mem_iff, List.mem_cons]

/-- No candidate of a queue comes before one that stands in front of it. -/
def Queued (queue : List Candidate) : Prop := queue.Pairwise fun c d => d.before c = false

theorem Queued.enqueue {queue : List Candidate} (h : Queued queue) (c : Candidate) :
    Queued (enqueue c queue) := by
  induction queue with
  | nil => exact List.pairwise_singleton _ _
  | cons d rest ih =>
    obtain ⟨hd, hrest⟩ := List.pairwise_cons.mp h
    rw [Scope.enqueue]
    split
    · next hc =>
      rw [Candidate.before_iff] at hc
      refine List.pairwise_cons.mpr ⟨?_, h⟩
      intro e he
      rw [← Bool.not_eq_true, Candidate.before_iff]
      rcases List.mem_cons.mp he with rfl | he
      · rintro (hlt | ⟨heq, hlt⟩)
        · omega
        · rcases hc with hc | ⟨-, hcd⟩
          · omega
          · exact hlt.asymm hcd
      -- What stands behind `d` does not come before it, so it does not come before `c`.
      · have back := hd e he
        rw [← Bool.not_eq_true, Candidate.before_iff] at back
        rintro (hlt | ⟨heq, hlt⟩)
        · omega
        · rcases hc with hc | ⟨hc, hcd⟩
          · omega
          · exact back (Or.inr ⟨by omega, hlt.trans hcd⟩)
    · next hc =>
      refine List.pairwise_cons.mpr ⟨?_, ih hrest⟩
      intro e he
      rcases mem_enqueue.mp he with rfl | he
      · simpa using hc
      · exact hd e he

/-- The queue of some scopes, which are put in one after another. -/
def queueFrom (order : List String) (groups : List (List String)) : List Candidate :=
  order.foldl (fun queue s => enqueue ⟨groupsWith s groups, s⟩ queue) []

theorem perm_foldl_enqueue (groups : List (List String)) (order : List String)
    (queue : List Candidate) :
    (order.foldl (fun queue s => enqueue ⟨groupsWith s groups, s⟩ queue) queue).Perm
      (order.map (fun s => ⟨groupsWith s groups, s⟩) ++ queue) := by
  induction order generalizing queue with
  | nil => exact .refl _
  | cons s order ih =>
    refine (ih _).trans ?_
    refine ((perm_enqueue _ queue).append_left _).trans ?_
    exact List.perm_middle

theorem mem_queueFrom {order : List String} {c : Candidate} :
    c ∈ queueFrom order groups ↔ ∃ s ∈ order, ⟨groupsWith s groups, s⟩ = c := by
  rw [queueFrom, (perm_foldl_enqueue groups order []).mem_iff, List.append_nil, List.mem_map]

theorem queued_foldl (groups : List (List String)) (order : List String) {queue : List Candidate}
    (h : Queued queue) :
    Queued (order.foldl (fun queue s => enqueue ⟨groupsWith s groups, s⟩ queue) queue) := by
  induction order generalizing queue with
  | nil => exact h
  | cons s order ih => exact ih (h.enqueue _)

theorem queued_queueFrom (order : List String) (groups : List (List String)) :
    Queued (queueFrom order groups) :=
  queued_foldl groups order .nil

/-- It does not matter in which order the scopes are put into the queue. -/
theorem queueFrom_perm {order other : List String} (h : order.Perm other)
    (groups : List (List String)) : queueFrom order groups = queueFrom other groups := by
  have same : ∀ c d : Candidate, d.before c = false → c.before d = false → c = d := by
    rintro ⟨m, s⟩ ⟨n, t⟩ hd hc
    rw [← Bool.not_eq_true, Candidate.before_iff] at hd hc
    dsimp only at hd hc
    have hmn : m = n := by omega
    have hst : s = t := by
      rcases lt_trichotomy s t with hlt | heq | hgt
      · exact absurd (Or.inr ⟨hmn, hlt⟩) hc
      · exact heq
      · exact absurd (Or.inr ⟨hmn.symm, hgt⟩) hd
    rw [hmn, hst]
  refine List.Perm.eq_of_pairwise (fun c d _ _ => same c d) (queued_queueFrom order groups)
    (queued_queueFrom other groups) ?_
  refine (perm_foldl_enqueue groups order []).trans ?_
  exact ((h.map _).append_right []).trans (perm_foldl_enqueue groups other []).symm

/-! ### Searching -/

namespace Search

variable {s t : Search}

/-- A search comes to another one in some steps. -/
def Reaches : Search → Search → Prop := Relation.ReflTransGen fun s t => s.step? = some t

/-- The number of groups that are not covered is right, none of them is empty, each of their scopes
waits in the queue, and no count in the queue is too low. -/
structure Sound (s : Search) : Prop where
  left : s.left = s.uncovered.length
  filled : ∀ g ∈ s.uncovered, g ≠ []
  waiting : ∀ scope, 0 < groupsWith scope s.uncovered → ∃ c ∈ s.queue, c.scope = scope
  bounded : ∀ c ∈ s.queue, groupsWith c.scope s.uncovered ≤ c.count
  queued : Queued s.queue

theorem sound_start (h : ∀ g ∈ groups, g ≠ []) : Sound (start groups) where
  left := rfl
  filled := h
  waiting := by
    intro scope pos
    have mem : scope ∈ setOf groups.flatten := by
      rw [mem_setOf, List.mem_flatten]
      exact groupsWith_pos_iff.mp pos
    exact ⟨_, mem_queueFrom.mpr ⟨scope, mem, rfl⟩, rfl⟩
  bounded := by
    intro c hc
    obtain ⟨scope, -, rfl⟩ := mem_queueFrom.mp hc
    exact Nat.le_refl _
  queued := queued_queueFrom _ groups

/-- What a step does: it changes nothing but the queue, or it takes the foremost scope. -/
inductive Effect (s t : Search) : Prop
  | queue (uncovered : t.uncovered = s.uncovered) (taken : t.taken = s.taken)
  | take (scope : String) (foremost : Foremost s.uncovered scope)
      (uncovered : t.uncovered = without scope s.uncovered) (taken : t.taken = insert scope s.taken)

namespace Sound

/-- While groups are not covered, a candidate waits. -/
theorem queue_ne_nil (h : Sound s) (hl : s.left ≠ 0) : s.queue ≠ [] := by
  have some : s.uncovered ≠ [] := by
    intro hn
    rw [h.left, hn] at hl
    exact hl rfl
  obtain ⟨g, hg⟩ := List.exists_mem_of_ne_nil _ some
  obtain ⟨scope, hscope⟩ := List.exists_mem_of_ne_nil g (h.filled g hg)
  obtain ⟨c, hc, -⟩ := h.waiting scope (groupsWith_pos_iff.mpr ⟨g, hg, hscope⟩)
  exact List.ne_nil_of_mem hc

theorem live_le (h : Sound s) (scope : String) : groupsWith scope s.uncovered ≤ s.left := by
  rw [h.left]
  exact List.length_filter_le _ _

/-- A candidate in front whose count still holds is the foremost scope. -/
theorem foremost (h : Sound s) {top : Candidate} {rest : List Candidate}
    (hq : s.queue = top :: rest) (pos : 0 < groupsWith top.scope s.uncovered)
    (holds : top.count ≤ groupsWith top.scope s.uncovered) :
    Foremost s.uncovered top.scope := by
  refine ⟨pos, fun scope => ?_⟩
  rcases Nat.eq_zero_or_pos (groupsWith scope s.uncovered) with hz | hp
  · exact Or.inl (hz ▸ pos)
  · obtain ⟨c, hc, rfl⟩ := h.waiting scope hp
    have bound := h.bounded c hc
    -- The one in front has the greatest count, and the least bytes of those with that count.
    have front : c = top ∨ c.before top = false := by
      rw [hq] at hc
      rcases List.mem_cons.mp hc with rfl | hc
      · exact Or.inl rfl
      · exact Or.inr ((List.pairwise_cons.mp (hq ▸ h.queued)).1 c hc)
    rcases front with rfl | front
    · exact Or.inr ⟨rfl, List.lt_irrefl _⟩
    · rw [← Bool.not_eq_true, Candidate.before_iff] at front
      by_cases heq : groupsWith c.scope s.uncovered = groupsWith top.scope s.uncovered
      · refine Or.inr ⟨heq, ?_⟩
        rw [Utf8.encode_lt_encode]
        intro hlt
        exact front (Or.inr ⟨by omega, hlt⟩)
      · left
        omega

/-- Every scope but the one in front still waits behind it, when that one is in no group any more.
-/
theorem waiting_rest (h : Sound s) {top : Candidate} {rest : List Candidate}
    (hq : s.queue = top :: rest) {uncovered : List (List String)}
    (gone : groupsWith top.scope uncovered = 0)
    (fewer : ∀ scope, groupsWith scope uncovered ≤ groupsWith scope s.uncovered) (scope : String)
    (pos : 0 < groupsWith scope uncovered) : ∃ c ∈ rest, c.scope = scope := by
  obtain ⟨c, hc, rfl⟩ := h.waiting scope (Nat.lt_of_lt_of_le pos (fewer scope))
  rw [hq] at hc
  rcases List.mem_cons.mp hc with rfl | hc
  · exact absurd gone (Nat.ne_of_gt pos)
  · exact ⟨c, hc, rfl⟩

/-- What a step keeps and what it does. -/
theorem step (h : Sound s) (hs : s.step? = some t) : Sound t ∧ Effect s t := by
  unfold step? at hs
  split at hs
  · cases hs
  · split at hs
    · cases hs
    · next top rest hq =>
      have queued : Queued rest := (List.pairwise_cons.mp (hq ▸ h.queued)).2
      have bounded : ∀ c ∈ rest, groupsWith c.scope s.uncovered ≤ c.count := by
        intro c hc
        exact h.bounded c (hq ▸ List.mem_cons_of_mem top hc)
      dsimp only at hs
      split at hs
      -- The scope is in no group any more.
      · next gone =>
        cases hs
        exact ⟨⟨h.left, h.filled, h.waiting_rest hq gone fun _ => Nat.le_refl _, bounded,
          queued⟩, .queue rfl rfl⟩
      · split at hs
        -- The count is too high and is set right.
        · next live stale =>
          cases hs
          refine ⟨⟨h.left, h.filled, ?_, ?_, queued.enqueue _⟩, .queue rfl rfl⟩
          · intro scope pos
            obtain ⟨c, hc, rfl⟩ := h.waiting scope pos
            rw [hq] at hc
            rcases List.mem_cons.mp hc with rfl | hc
            · exact ⟨_, mem_enqueue.mpr (Or.inl rfl), rfl⟩
            · exact ⟨c, mem_enqueue.mpr (Or.inr hc), rfl⟩
          · intro c hc
            rcases mem_enqueue.mp hc with rfl | hc
            · exact Nat.le_refl _
            · exact bounded c hc
        -- The count holds and the scope is taken.
        · next live fresh =>
          cases hs
          have first := h.foremost hq (Nat.pos_of_ne_zero live) (Nat.not_lt.mp fresh)
          refine ⟨⟨?_, ?_, ?_, ?_, queued⟩, .take top.scope first rfl rfl⟩
          · have := groupsWith_add_length_without top.scope s.uncovered
            have := h.left
            dsimp only
            omega
          · intro g hg
            exact h.filled g (mem_without.mp hg).1
          · exact h.waiting_rest hq (groupsWith_without_self _ _) fun scope =>
              groupsWith_without_le _ scope _
          · intro c hc
            exact Nat.le_trans (groupsWith_without_le _ _ _) (bounded c hc)

theorem reaches (h : Sound s) (hr : s.Reaches t) : Sound t := by
  induction hr with
  | refl => exact h
  | tail _ hs ih => exact (ih.step hs).1

/-- A search is over only when everything is covered. -/
theorem left_eq_zero (h : Sound s) (hs : s.step? = none) : s.left = 0 := by
  refine Classical.byContradiction fun hl => ?_
  have hq := h.queue_ne_nil hl
  unfold step? at hs
  rw [if_neg hl] at hs
  split at hs
  · contradiction
  · dsimp only at hs
    split at hs
    · cases hs
    · split at hs <;> cases hs

end Sound

theorem reaches_run (s : Search) : s.Reaches s.run ∧ s.run.step? = none := by
  induction s using run.induct with
  | case1 s hs =>
    have : s.run = s := by
      rw [run]
      split
      · rfl
      · next he =>
        rw [hs] at he
        cases he
    rw [this]
    exact ⟨.refl, hs⟩
  | case2 s t hs ih =>
    have : s.run = t.run := by
      rw [run]
      split
      · next he =>
        rw [hs] at he
        cases he
      · next he =>
        rw [hs] at he
        cases he
        rfl
    rw [this]
    exact ⟨.head hs ih.1, ih.2⟩

/-- From the first step to the last, a search takes the foremost scopes one after another. -/
theorem run_spec (h : Sound s) (hr : s.Reaches t) (hend : t.step? = none) :
    ∃ scopes, Greedy s.uncovered scopes ∧ t.taken = insertAll s.taken scopes := by
  induction hr using Relation.ReflTransGen.head_induction_on with
  | refl =>
    have none : t.uncovered = [] := by
      rw [← List.length_eq_zero_iff, ← h.left]
      exact h.left_eq_zero hend
    exact ⟨[], none ▸ .done, rfl⟩
  | @head s u hs _ ih =>
    obtain ⟨sound, effect⟩ := h.step hs
    obtain ⟨scopes, greedy, taken⟩ := ih sound
    cases effect with
    | queue uncovered same =>
      rw [uncovered] at greedy
      rw [same] at taken
      exact ⟨scopes, greedy, taken⟩
    | take scope foremost uncovered added =>
      rw [uncovered] at greedy
      rw [added] at taken
      exact ⟨scope :: scopes, .pick foremost greedy, taken⟩

end Search

/-! ### The cover -/

theorem ne_nil_of_mem_requirements {g : List String} (h : g ∈ requirements groups) : g ≠ [] := by
  simpa using (List.mem_filter.mp h).2

theorem setOf_mem_requirements {g : List String} (hg : g ∈ groups) (hn : g ≠ []) :
    setOf g ∈ requirements groups := by
  refine List.mem_filter.mpr ⟨List.mem_map_of_mem hg, ?_⟩
  simpa using setOf_ne_nil hn

theorem exists_of_mem_requirements {g : List String} (h : g ∈ requirements groups) :
    ∃ g' ∈ groups, setOf g' = g :=
  List.mem_map.mp (List.mem_filter.mp h).1

/-- The cover is made of the foremost scopes. -/
theorem cover_greedy (groups : List (List String)) :
    ∃ scopes, Greedy (requirements groups) scopes ∧ cover groups = setOf scopes := by
  have filled : ∀ g ∈ requirements groups, g ≠ [] := fun _ => ne_nil_of_mem_requirements
  have sound := Search.sound_start filled
  obtain ⟨reaches, ends⟩ := (Search.start (requirements groups)).reaches_run
  exact Search.run_spec sound reaches ends

/-- Every group that is not empty has a scope of the cover. -/
theorem exists_mem_cover {g : List String} (hg : g ∈ groups) (hn : g ≠ []) :
    ∃ s ∈ g, s ∈ cover groups := by
  obtain ⟨scopes, greedy, hc⟩ := cover_greedy groups
  obtain ⟨s, hs, hsg⟩ := greedy.exists_mem (setOf_mem_requirements hg hn)
  rw [hc]
  exact ⟨s, mem_setOf.mp hsg, mem_setOf.mpr hs⟩

/-- Every scope of the cover is in some group. -/
theorem exists_group_of_mem_cover {s : String} (h : s ∈ cover groups) : ∃ g ∈ groups, s ∈ g := by
  obtain ⟨scopes, greedy, hc⟩ := cover_greedy groups
  rw [hc, mem_setOf] at h
  obtain ⟨g, hg, hs⟩ := greedy.exists_group h
  obtain ⟨g', hg', rfl⟩ := exists_of_mem_requirements hg
  exact ⟨g', hg', mem_setOf.mp hs⟩

/-- Groups in another order, with the scopes of each in another order and repeated as one likes. -/
def Alike (groups others : List (List String)) : Prop :=
  ∃ moved, groups.Perm moved ∧ List.Forall₂ (fun g h => ∀ s, s ∈ g ↔ s ∈ h) moved others

theorem Alike.requirements_perm (h : Alike groups others) :
    (requirements groups).Perm (requirements others) := by
  obtain ⟨moved, perm, same⟩ := h
  have : moved.map setOf = others.map setOf := by
    induction same generalizing groups with
    | nil => rfl
    | cons hs _ ih => rw [List.map_cons, List.map_cons, setOf_eq_setOf hs, ih (.refl _)]
  rw [requirements, requirements, ← this]
  exact (perm.map setOf).filter _

/-- What there is to know of the cover of groups. -/
structure Settled (groups : List (List String)) : Prop where
  /-- The search comes to an end with everything covered, and what it took is the cover. -/
  ends : ∃ s, (Search.start (requirements groups)).Reaches s ∧ s.step? = none ∧
    s.uncovered = [] ∧ s.taken = cover groups
  /-- On the way no queue is empty while groups are not covered, and as many groups are left as are
  not covered, so no more are taken from that number than it has. -/
  safe : ∀ s, (Search.start (requirements groups)).Reaches s →
    (s.uncovered ≠ [] → s.queue ≠ []) ∧ s.left = s.uncovered.length ∧
      ∀ top ∈ s.queue, groupsWith top.scope s.uncovered ≤ s.left
  /-- The cover is the set of the foremost scopes, of which there is one list. -/
  greedy : ∃ scopes, Greedy (requirements groups) scopes ∧
    (∀ other, Greedy (requirements groups) other → other = scopes) ∧ cover groups = setOf scopes
  /-- It is what counting anew every time finds. -/
  eager : cover groups = Scope.greedy groups
  /-- It depends neither on the order of the groups nor on order and repetitions in them. -/
  alike : ∀ others, Alike groups others → cover others = cover groups
  /-- The search starts with one queue, in whatever order the scopes are put into it. -/
  order : ∀ order : List String, order.Nodup →
    (∀ s, s ∈ order ↔ ∃ g ∈ requirements groups, s ∈ g) →
      queueFrom order (requirements groups) = (Search.start (requirements groups)).queue

/-- The search that counts when it matters finds what counting anew finds, for all groups. -/
theorem cover_spec (groups : List (List String)) : Settled groups := by
  have filled : ∀ g ∈ requirements groups, g ≠ [] := fun g hg => ne_nil_of_mem_requirements hg
  have sound := Search.sound_start filled
  obtain ⟨scopes, greedy, hc⟩ := cover_greedy groups
  obtain ⟨reaches, ends⟩ := (Search.start (requirements groups)).reaches_run
  have unique : ∀ other, Greedy (requirements groups) other → other = scopes :=
    fun _ h => h.unique greedy
  refine ⟨⟨_, reaches, ends, ?_, rfl⟩, ?_, ⟨scopes, greedy, unique, hc⟩, ?_, ?_, ?_⟩
  · have final := sound.reaches reaches
    rw [← List.length_eq_zero_iff, ← final.left]
    exact final.left_eq_zero ends
  · intro s hs
    have final := sound.reaches hs
    refine ⟨fun hn => final.queue_ne_nil ?_, final.left, fun top _ => final.live_le top.scope⟩
    rw [final.left]
    exact fun hz => hn (List.length_eq_zero_iff.mp hz)
  · rw [hc, greedy.unique (greedy_picks filled)]
    rfl
  · intro others h
    obtain ⟨scopes', greedy', hc'⟩ := cover_greedy others
    rw [hc, hc', (greedy.perm h.requirements_perm).unique greedy']
  · intro order nodup mem
    refine queueFrom_perm ((List.perm_ext_iff_of_nodup nodup ?_).mpr ?_) _
    · exact (pairwise_setOf _).imp fun h => h.ne
    · intro s
      rw [mem, mem_setOf, List.mem_flatten]

example : cover [["a", "b"], ["b", "c"], ["c", "d"]] = ["b", "c"] := by decide +kernel

end ToolGateway.Scope
