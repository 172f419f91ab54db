import ToolGateway.Proofs.Reference.Numbering

/-!
# The search for components

What carries Tarjan's algorithm is an invariant about the keys on the stack (`Tarjan.Sound`): each of
them is led to by those below it, and leads to one whose search is still under way. While the search
from a key is under way, its mark bounds how far below itself the keys above it lead
(`Tarjan.Underway`). So when the search ends and the key leads to none below it, the keys from there
on are a class of keys that lead to each other, and their component is complete
(`Underway.complete`); otherwise they stay on the stack (`Underway.leave`).
-/

namespace ToolGateway

namespace Tarjan

variable {g : ReferenceGraph} {path new seen : List String} {x k : String} {t s : Tarjan}

/-! ### What is known of a key -/

def Met (t : Tarjan) (k : String) : Prop := (t.index.lookup k).isSome = true

/-- The component of the key is complete. -/
def Done (t : Tarjan) (k : String) : Prop := k ∈ t.component.map (·.1)

/-- The number of a key that was met. -/
def place (t : Tarjan) (k : String) : Nat := (t.index.lookup k).getD 0

/-- How far back a key that was met is known to lead. -/
def mark (t : Tarjan) (k : String) : Nat := (t.low.lookup k).getD 0

theorem Met.lookup (h : t.Met k) : t.index.lookup k = some (t.place k) := by
  obtain ⟨n, hn⟩ := Option.isSome_iff_exists.mp h
  rw [place, hn, Option.getD_some]

theorem met_enter_iff : (t.enter x).Met k ↔ k = x ∨ t.Met k := by
  by_cases h : k = x
  · simp [h, Met, enter]
  · simp [h, Met, enter, List.lookup_cons_of_ne h]

theorem place_enter_self : (t.enter x).place x = t.nextIndex := by
  simp [place, enter]

theorem mark_enter_self : (t.enter x).mark x = t.nextIndex := by
  simp [mark, enter]

theorem mark_setLow_self (n : Nat) : (t.setLow x n).mark x = n := by
  simp [mark, setLow]

/-- What was known of the keys that were met is known still. -/
def Kept (s t : Tarjan) : Prop :=
  ∀ k, s.Met k → t.index.lookup k = s.index.lookup k ∧ t.low.lookup k = s.low.lookup k

namespace Kept

theorem met (h : Kept s t) (hk : s.Met k) : t.Met k := by
  rw [Met, (h k hk).1]
  exact hk

theorem place_eq (h : Kept s t) (hk : s.Met k) : t.place k = s.place k := by
  rw [place, place, (h k hk).1]

theorem mark_eq (h : Kept s t) (hk : s.Met k) : t.mark k = s.mark k := by
  rw [mark, mark, (h k hk).2]

theorem trans {u : Tarjan} (h : Kept s t) (h' : Kept t u) : Kept s u := fun k hk =>
  ⟨(h' k (h.met hk)).1.trans (h k hk).1, (h' k (h.met hk)).2.trans (h k hk).2⟩

theorem enter (fresh : ¬t.Met x) : Kept t (t.enter x) := by
  intro k hk
  have other : k ≠ x := fun h => fresh (h ▸ hk)
  exact ⟨List.lookup_cons_of_ne other _ _, List.lookup_cons_of_ne other _ _⟩

/-- Setting the mark of a key that was not met before changes nothing that was known. -/
theorem setLow (h : Kept s t) (fresh : ¬s.Met x) (n : Nat) : Kept s (t.setLow x n) := by
  intro k hk
  have other : k ≠ x := fun h => fresh (h ▸ hk)
  exact ⟨(h k hk).1, (List.lookup_cons_of_ne other _ _).trans (h k hk).2⟩

end Kept

/-! ### The invariant -/

/-- A search inside searches from the keys of `path`, the innermost one first. -/
structure Sound (g : ReferenceGraph) (path : List String) (t : Tarjan) : Prop where
  /-- The keys that were met are those on the stack and those with a component, -/
  met_iff : ∀ k, t.Met k ↔ k ∈ t.stack ∨ t.Done k
  /-- and no key is both. -/
  apart : ∀ k ∈ t.stack, ¬t.Done k
  keys : ∀ k, t.Met k → k ∈ g.keys
  marked : ∀ k, t.Met k → (t.low.lookup k).isSome = true
  onStack : ∀ k, k ∈ t.onStack ↔ k ∈ t.stack
  below : ∀ k, t.Met k → t.place k < t.nextIndex
  /-- A key on the stack was met after those below it, and they lead to it. -/
  order : t.stack.Pairwise fun a b => t.place b < t.place a ∧ g.Reaches b a
  nodup : path.Nodup
  subset : path ⊆ t.stack
  /-- A key on the stack leads to one whose search is under way and that was met no later. -/
  back : ∀ k ∈ t.stack, ∃ p ∈ path, t.place p ≤ t.place k ∧ g.Reaches k p
  /-- Every edge was followed, but for those of keys whose search is under way. -/
  onward : ∀ k, t.Met k → k ∉ path → ∀ b ∈ g.next k, t.Met b
  numbered : g.Numbered t.component t.count

namespace Sound

theorem lookup_low (h : Sound g path t) (hk : t.Met k) : t.low.lookup k = some (t.mark k) := by
  obtain ⟨n, hn⟩ := Option.isSome_iff_exists.mp (h.marked k hk)
  rw [mark, hn, Option.getD_some]

theorem met_of_mem (h : Sound g path t) (hk : k ∈ t.stack) : t.Met k :=
  (h.met_iff k).mpr (Or.inl hk)

theorem start : Sound g [] .start where
  met_iff := by simp [Met, Done, Tarjan.start]
  apart := by simp [Tarjan.start]
  keys := by simp [Met, Tarjan.start]
  marked := by simp [Met, Tarjan.start]
  onStack := by simp [Tarjan.start]
  below := by simp [Met, Tarjan.start]
  order := .nil
  nodup := .nil
  subset := List.nil_subset _
  back := by simp [Tarjan.start]
  onward := by simp [Met, Tarjan.start]
  numbered := ⟨by simp [Tarjan.start], by simp [Tarjan.start], .nil⟩

/-- A key that those under way lead to is met, and its search is under way. -/
theorem enter (h : Sound g path t) (hx : x ∈ g.keys) (fresh : ¬t.Met x)
    (leads : ∀ p ∈ path, g.Reaches p x) : Sound g (x :: path) (t.enter x) := by
  have kept := Kept.enter fresh
  have place : ∀ {k}, t.Met k → (t.enter x).place k = t.place k := kept.place_eq
  have met : ∀ {k}, k ∈ t.stack → t.Met k := h.met_of_mem
  exact {
    met_iff := by
      intro k
      rw [met_enter_iff, h.met_iff k]
      exact or_assoc.symm.trans (or_congr_left List.mem_cons.symm)
    apart := by
      intro k hk
      rcases List.mem_cons.mp hk with rfl | hk
      · exact fun done => fresh ((h.met_iff k).mpr (Or.inr done))
      · exact h.apart k hk
    keys := by
      intro k hk
      rcases met_enter_iff.mp hk with rfl | hk
      · exact hx
      · exact h.keys k hk
    marked := by
      intro k hk
      rcases met_enter_iff.mp hk with rfl | hk
      · simp [Tarjan.enter]
      · rw [(kept k hk).2]
        exact h.marked k hk
    onStack := by
      intro k
      exact List.mem_cons.trans ((or_congr_right (h.onStack k)).trans List.mem_cons.symm)
    below := by
      intro k hk
      rcases met_enter_iff.mp hk with rfl | hk
      · rw [place_enter_self]
        exact Nat.lt_succ_self _
      · rw [place hk]
        exact Nat.lt_succ_of_lt (h.below k hk)
    order := by
      refine List.pairwise_cons.mpr ⟨?_, ?_⟩
      · intro b hb
        obtain ⟨p, hp, -, reaches⟩ := h.back b hb
        rw [place_enter_self, place (met hb)]
        exact ⟨h.below b (met hb), reaches.trans (leads p hp)⟩
      · refine h.order.imp_of_mem fun {a b} ha hb ordered => ?_
        rwa [place (met ha), place (met hb)]
    nodup := List.nodup_cons.mpr ⟨fun hp => fresh (met (h.subset hp)), h.nodup⟩
    subset := List.cons_subset_cons x h.subset
    back := by
      intro k hk
      rcases List.mem_cons.mp hk with rfl | hk
      · exact ⟨k, List.mem_cons_self, Nat.le_refl _, .refl⟩
      · obtain ⟨p, hp, le, reaches⟩ := h.back k hk
        refine ⟨p, List.mem_cons_of_mem x hp, ?_, reaches⟩
        rwa [place (met (h.subset hp)), place (met hk)]
    onward := by
      intro k hk hn b hb
      rcases met_enter_iff.mp hk with rfl | hk
      · exact absurd List.mem_cons_self hn
      · exact kept.met (h.onward k hk (fun hp => hn (List.mem_cons_of_mem x hp)) b hb)
    numbered := h.numbered }

/-- The marks matter to the invariant in that they are there. -/
theorem setLow (h : Sound g path t) (n : Nat) : Sound g path (t.setLow x n) where
  met_iff := h.met_iff
  apart := h.apart
  keys := h.keys
  marked := by
    intro k hk
    by_cases same : k = x
    · simp [same, Tarjan.setLow]
    · rw [Tarjan.setLow, List.lookup_cons_of_ne same]
      exact h.marked k hk
  onStack := h.onStack
  below := h.below
  order := h.order
  nodup := h.nodup
  subset := h.subset
  back := h.back
  onward := h.onward
  numbered := h.numbered

end Sound

/-! ### What a search finds -/

/-- A search from `x` that began at `s` and has followed the edges to the keys seen. -/
structure Underway (g : ReferenceGraph) (x : String) (seen : List String) (s t : Tarjan) :
    Prop where
  kept : Kept s t
  place_eq : t.place x = s.nextIndex
  /-- What was put on the stack leads no farther back than the mark says. -/
  grown : ∃ new, t.stack = new ++ x :: s.stack ∧
    ∀ y ∈ new, ∀ z ∈ g.next y, z ∈ s.stack → t.mark x ≤ t.place z
  seen : ∀ z ∈ seen, t.Met z ∧ (z ∈ s.stack → t.mark x ≤ t.place z)
  le : t.mark x ≤ t.place x
  /-- The mark is the number of a key on the stack to which the search leads. -/
  reached : ∃ y ∈ t.stack, t.place y = t.mark x ∧ g.Reaches x y

/-- A search from `x` that began at `s` and came to its end. -/
structure Connected (g : ReferenceGraph) (x : String) (s t : Tarjan) : Prop where
  met : t.Met x
  kept : Kept s t
  place_eq : t.place x = s.nextIndex
  grown : ∃ new, t.stack = new ++ s.stack ∧
    ∀ y ∈ new, ∀ z ∈ g.next y, z ∈ s.stack → t.mark x ≤ t.place z
  reached : t.mark x = t.place x ∨ ∃ y ∈ t.stack, t.place y = t.mark x ∧ g.Reaches x y

namespace Underway

theorem start (fresh : ¬t.Met x) : Underway g x [] t (t.enter x) where
  kept := .enter fresh
  place_eq := place_enter_self
  grown := ⟨[], rfl, by simp⟩
  seen := by simp
  le := Nat.le_of_eq (mark_enter_self.trans place_enter_self.symm)
  reached := ⟨x, List.mem_cons_self, place_enter_self.trans mark_enter_self.symm, .refl⟩

theorem mem_stack (u : Underway g x seen s t) : x ∈ t.stack := by
  obtain ⟨new, stack, -⟩ := u.grown
  rw [stack]
  exact List.mem_append_right _ List.mem_cons_self

theorem subset (u : Underway g x seen s t) : s.stack ⊆ t.stack := by
  obtain ⟨new, stack, -⟩ := u.grown
  rw [stack]
  exact fun z hz => List.mem_append_right _ (List.mem_cons_of_mem x hz)

variable {visit : String → Tarjan → Option Tarjan} {next : String} {t' : Tarjan}

/-- After a search inside the lower one of both marks is the number of a key on the stack to which the
search leads. -/
theorem reached_visited (u : Underway g x seen s t) (h : Sound g (x :: path) t)
    (edge : next ∈ g.next x) (c : Connected g next t t') :
    ∃ y ∈ t'.stack, t'.place y = min (t'.mark x) (t'.mark next) ∧ g.Reaches x y := by
  have there : t.Met x := h.met_of_mem u.mem_stack
  have mark : t'.mark x = t.mark x := c.kept.mark_eq there
  rcases Nat.le_total (t'.mark x) (t'.mark next) with le | le
  · -- The mark stays, and so does the key that it belongs to.
    obtain ⟨y, hy, same, reaches⟩ := u.reached
    obtain ⟨more, stack, -⟩ := c.grown
    refine ⟨y, ?_, ?_, reaches⟩
    · rw [stack]
      exact List.mem_append_right _ hy
    · rw [Nat.min_eq_left le, mark, ← same]
      exact c.kept.place_eq (h.met_of_mem hy)
  · rw [Nat.min_eq_right le]
    rcases c.reached with top | ⟨y, hy, same, reaches⟩
    · -- The other search led to nothing below it, so its mark is not the smaller one.
      have := h.below x there
      have := u.le
      rw [top, c.place_eq, mark] at le
      omega
    · exact ⟨y, hy, same, .head edge reaches⟩

/-- The edge leads to a key that was not met, and the search from there came to its end. -/
theorem visited (u : Underway g x seen s t) (h : Sound g (x :: path) t)
    (fresh : ¬s.Met x) (old : ∀ z ∈ s.stack, s.Met z) (edge : next ∈ g.next x)
    (unmet : ¬t.Met next) (c : Connected g next t t') :
    Underway g x (next :: seen) s (t'.setLow x (min (t'.mark x) (t'.mark next))) := by
  have there : t.Met x := h.met_of_mem u.mem_stack
  have mark : t'.mark x = t.mark x := c.kept.mark_eq there
  have place : t'.place x = t.place x := c.kept.place_eq there
  obtain ⟨new, stack, crossing⟩ := u.grown
  obtain ⟨more, stack', crossing'⟩ := c.grown
  have lower : ∀ z, z ∈ s.stack → t.mark x ≤ t.place z →
      min (t'.mark x) (t'.mark next) ≤ t'.place z := by
    intro z hz le
    rw [c.kept.place_eq (u.kept.met (old z hz)), mark]
    exact Nat.le_trans (Nat.min_le_left _ _) le
  refine ⟨(u.kept.trans c.kept).setLow fresh _, place.trans u.place_eq, ?_, ?_, ?_, ?_⟩
  · refine ⟨more ++ new, by rw [List.append_assoc, ← stack, ← stack']; rfl, ?_⟩
    intro y hy z hz back
    rw [mark_setLow_self]
    rcases List.mem_append.mp hy with hy | hy
    · exact Nat.le_trans (Nat.min_le_right _ _) (crossing' y hy z hz (u.subset back))
    · exact lower z back (crossing y hy z hz back)
  · intro z hz
    rw [mark_setLow_self]
    rcases List.mem_cons.mp hz with rfl | hz
    · exact ⟨c.met, fun back => absurd (u.kept.met (old z back)) unmet⟩
    · exact ⟨c.kept.met (u.seen z hz).1, fun back => lower z back ((u.seen z hz).2 back)⟩
  · rw [mark_setLow_self]
    show min (t'.mark x) (t'.mark next) ≤ t'.place x
    rw [mark, place]
    exact Nat.le_trans (Nat.min_le_left _ _) u.le
  · rw [mark_setLow_self]
    exact u.reached_visited h edge c

/-- The edge leads to a key on the stack. -/
theorem looked (u : Underway g x seen s t) (h : Sound g (x :: path) t) (fresh : ¬s.Met x)
    (edge : next ∈ g.next x) (mem : next ∈ t.stack) :
    Underway g x (next :: seen) s (t.setLow x (min (t.mark x) (t.place next))) := by
  obtain ⟨new, stack, crossing⟩ := u.grown
  refine ⟨u.kept.setLow fresh _, u.place_eq, ⟨new, stack, ?_⟩, ?_, ?_, ?_⟩
  · intro y hy z hz back
    rw [mark_setLow_self]
    exact Nat.le_trans (Nat.min_le_left _ _) (crossing y hy z hz back)
  · intro z hz
    rw [mark_setLow_self]
    rcases List.mem_cons.mp hz with rfl | hz
    · exact ⟨h.met_of_mem mem, fun _ => Nat.min_le_right _ _⟩
    · exact ⟨(u.seen z hz).1, fun back =>
        Nat.le_trans (Nat.min_le_left _ _) ((u.seen z hz).2 back)⟩
  · rw [mark_setLow_self]
    exact Nat.le_trans (Nat.min_le_left _ _) u.le
  · rw [mark_setLow_self]
    rcases Nat.le_total (t.mark x) (t.place next) with le | le
    · rw [Nat.min_eq_left le]
      exact u.reached
    · rw [Nat.min_eq_right le]
      exact ⟨next, mem, rfl, .single edge⟩

/-- The edge leads to a key whose component is complete. -/
theorem passed (u : Underway g x seen s t) (met : t.Met next) (other : next ∉ t.stack) :
    Underway g x (next :: seen) s t where
  kept := u.kept
  place_eq := u.place_eq
  grown := u.grown
  seen := by
    intro z hz
    rcases List.mem_cons.mp hz with rfl | hz
    · exact ⟨met, fun back => absurd (u.subset back) other⟩
    · exact u.seen z hz
  le := u.le
  reached := u.reached

/-- Following an edge keeps everything, when the search from a key that was not met does. -/
theorem follow (u : Underway g x seen s t) (h : Sound g (x :: path) t) (fresh : ¬s.Met x)
    (old : ∀ z ∈ s.stack, s.Met z) (edge : next ∈ g.next x)
    (visits : ¬t.Met next → ∃ t', visit next t = some t' ∧ Sound g (x :: path) t' ∧
      Connected g next t t') :
    ∃ t', t.follow visit x next = some t' ∧ Sound g (x :: path) t' ∧
      Underway g x (next :: seen) s t' := by
  have there : t.Met x := h.met_of_mem u.mem_stack
  unfold Tarjan.follow
  split
  · next unmet =>
    have unmet : ¬t.Met next := by
      rw [Met, Option.isNone_iff_eq_none.mp unmet]
      exact Bool.false_ne_true
    obtain ⟨t', run, h', c⟩ := visits unmet
    refine ⟨t'.setLow x (min (t'.mark x) (t'.mark next)), ?_, h'.setLow _,
      u.visited h fresh old edge unmet c⟩
    simp only [run, h'.lookup_low (c.kept.met there), h'.lookup_low c.met, Option.bind_eq_bind,
      Option.bind_some, Option.pure_def]
  · next met =>
    have met : t.Met next := by simpa [Met, Option.isSome_iff_ne_none] using met
    split
    · next mem =>
      have mem : next ∈ t.stack := (h.onStack next).mp (List.contains_iff_mem.mp mem)
      refine ⟨t.setLow x (min (t.mark x) (t.place next)), ?_, h.setLow _, u.looked h fresh edge mem⟩
      simp only [h.lookup_low there, met.lookup, Option.bind_eq_bind, Option.bind_some,
        Option.pure_def]
    · next other =>
      refine ⟨t, rfl, h, u.passed met fun mem => other ?_⟩
      exact List.contains_iff_mem.mpr ((h.onStack next).mpr mem)

end Underway

/-! ### Completing a component -/

/-- Closing takes the keys above one from the stack, and that one itself. -/
theorem close_append {rest : List String} (notMem : x ∉ new) :
    close x (new ++ x :: rest) t = { t with
      stack := rest
      onStack := t.onStack.filter (· ∉ new ++ [x])
      component := (new ++ [x]).reverse.map (fun k => (k, t.count)) ++ t.component } := by
  induction new generalizing t with
  | nil =>
    rw [List.nil_append, List.nil_append, close, if_pos rfl]
    have same : t.onStack.filter (· != x) = t.onStack.filter (· ∉ [x]) := by
      refine List.filter_congr fun k _ => ?_
      rw [Bool.eq_iff_iff]
      simp
    rw [same]
    rfl
  | cons y new ih =>
    obtain ⟨other, notMem⟩ := not_or.mp fun mem => notMem (List.mem_cons.mpr mem)
    rw [List.cons_append, close, if_neg (Ne.symm other), ih notMem]
    have both : (t.onStack.filter (· != y)).filter (· ∉ new ++ [x]) =
        t.onStack.filter (· ∉ y :: new ++ [x]) := by
      rw [List.filter_filter]
      refine List.filter_congr fun k _ => ?_
      rw [Bool.eq_iff_iff]
      simp [and_comm]
    have members : (new ++ [x]).reverse.map (fun k => (k, t.count)) ++ (y, t.count) :: t.component =
        (y :: new ++ [x]).reverse.map (fun k => (k, t.count)) ++ t.component := by
      simp
    simp only [both, members]

/-- Completing a component takes the keys from one on from the stack, and gives them its number. -/
theorem complete_eq {rest : List String} (stack : t.stack = new ++ x :: rest) (notMem : x ∉ new) :
    t.complete x = { t with
      stack := rest
      onStack := t.onStack.filter (· ∉ new ++ [x])
      component := (new ++ [x]).reverse.map (fun k => (k, t.count)) ++ t.component
      count := t.count + 1 } := by
  rw [Tarjan.complete, stack, close_append notMem]

theorem done_complete_iff {rest : List String} (stack : t.stack = new ++ x :: rest)
    (notMem : x ∉ new) : (t.complete x).Done k ↔ k ∈ new ++ [x] ∨ t.Done k := by
  rw [complete_eq stack notMem, Done, ReferenceGraph.keys_block, List.mem_append, List.mem_reverse]
  rfl

/-- Keys above the one from which a search began were met later, and it leads to them. -/
theorem Sound.above (h : Sound g (x :: path) t) (stack : t.stack = new ++ x :: s.stack) :
    (∀ y ∈ new, t.place x < t.place y ∧ g.Reaches x y) ∧
      (∀ z ∈ s.stack, t.place z < t.place x ∧ g.Reaches z x) ∧
      ∀ y ∈ new, ∀ z ∈ s.stack, t.place z < t.place y := by
  have order := h.order
  rw [stack, List.pairwise_append, List.pairwise_cons] at order
  obtain ⟨-, ⟨lower, -⟩, upper⟩ := order
  exact ⟨fun y hy => upper y hy x List.mem_cons_self, lower,
    fun y hy z hz => (upper y hy z (List.mem_cons_of_mem x hz)).1⟩

namespace Underway

variable (u : Underway g x seen s t) (h : Sound g (x :: path) t)
  (origin : Sound g path s) (all : ∀ z ∈ g.next x, z ∈ seen)

include u h origin in
/-- The keys above `x` lead back to it. -/
theorem reaches_back (stack : t.stack = new ++ x :: s.stack) {y : String} (hy : y ∈ new) :
    g.Reaches y x := by
  have mem : y ∈ t.stack := stack ▸ List.mem_append_left _ hy
  obtain ⟨p, hp, -, reaches⟩ := h.back y mem
  rcases List.mem_cons.mp hp with rfl | hp
  · exact reaches
  · exact reaches.trans ((h.above stack).2.1 p (origin.subset hp)).2

include u h all in
/-- With the edges of `x` every edge was followed, but for those of keys on the path. -/
theorem onward : ∀ k, t.Met k → k ∉ path → ∀ b ∈ g.next k, t.Met b := by
  intro k hk other b edge
  by_cases here : k = x
  · rw [here] at edge
    exact (u.seen b (all b edge)).1
  · exact h.onward k hk (fun hp => (List.mem_cons.mp hp).elim here other) b edge

include u h origin all in
/-- When a key leads no farther back than to itself, what it leads to and what leads to it are the
keys above it. -/
theorem mem_of_reaches (stack : t.stack = new ++ x :: s.stack)
    (crossing : ∀ y ∈ new, ∀ z ∈ g.next y, z ∈ s.stack → t.mark x ≤ t.place z)
    (top : t.mark x = t.place x) {b : String} (onto : g.Reaches x b) (back : g.Reaches b x) :
    b ∈ new ++ [x] := by
  obtain ⟨above, below, apart⟩ := h.above stack
  induction onto with
  | refl => exact List.mem_append_right _ List.mem_cons_self
  | @tail w b onto edge ih =>
    have mem := ih (.head edge back)
    -- The edge was followed, and if it led below `x`, the mark would say so.
    have followed : t.Met b ∧ (b ∈ s.stack → t.mark x ≤ t.place b) := by
      rcases List.mem_append.mp mem with hw | hw
      · have stacked : w ∈ t.stack := stack ▸ List.mem_append_left _ hw
        have ended : w ∉ x :: path := by
          intro hp
          rcases List.mem_cons.mp hp with rfl | hp
          · exact absurd (above w hw).1 (Nat.lt_irrefl _)
          · exact absurd (apart w hw w (origin.subset hp)) (Nat.lt_irrefl _)
        exact ⟨h.onward w (h.met_of_mem stacked) ended b edge, crossing w hw b edge⟩
      · rw [List.mem_singleton.mp hw] at edge
        exact u.seen b (all b edge)
    rcases (h.met_iff b).mp followed.1 with there | done
    · rw [stack] at there
      rcases List.mem_append.mp there with there | there
      · exact List.mem_append_left _ there
      · rcases List.mem_cons.mp there with rfl | there
        · exact List.mem_append_right _ List.mem_cons_self
        · have le := followed.2 there
          have lt := (below b there).1
          omega
    · -- A component that is complete holds all keys that its keys lead to and that lead back.
      have same := (h.numbered.classes b done x).mpr ⟨back, onto.tail edge⟩
      refine absurd ?_ (h.apart x u.mem_stack)
      rw [Done, ← ReferenceGraph.isSome_lookup_iff, same]
      exact ReferenceGraph.isSome_lookup_iff.mpr done

include u h origin all in
/-- The keys from `x` on are all that lead to one of them and back. -/
theorem mem_block_iff (stack : t.stack = new ++ x :: s.stack)
    (crossing : ∀ y ∈ new, ∀ z ∈ g.next y, z ∈ s.stack → t.mark x ≤ t.place z)
    (top : t.mark x = t.place x) {a : String} (ha : a ∈ new ++ [x]) (b : String) :
    b ∈ new ++ [x] ↔ g.Reaches a b ∧ g.Reaches b a := by
  have member : ∀ k ∈ new ++ [x], g.Reaches x k ∧ g.Reaches k x := by
    intro k hk
    rcases List.mem_append.mp hk with hk | hk
    · exact ⟨((h.above stack).1 k hk).2, u.reaches_back h origin stack hk⟩
    · rw [List.mem_singleton.mp hk]
      exact ⟨.refl, .refl⟩
  obtain ⟨onto, back⟩ := member a ha
  constructor
  · intro hb
    obtain ⟨onto', back'⟩ := member b hb
    exact ⟨back.trans onto', back'.trans onto⟩
  · rintro ⟨ab, ba⟩
    exact u.mem_of_reaches h origin all stack crossing top (onto.trans ab) (ba.trans back)

include u h origin all in
/-- When a key leads no farther back than to itself, the keys from it on are a class without a number
and get the next one. -/
theorem numbered_block (stack : t.stack = new ++ x :: s.stack)
    (crossing : ∀ y ∈ new, ∀ z ∈ g.next y, z ∈ s.stack → t.mark x ≤ t.place z)
    (top : t.mark x = t.place x) :
    g.Numbered ((new ++ [x]).reverse.map (fun k => (k, t.count)) ++ t.component) (t.count + 1) := by
  have ordered := h.order
  rw [stack, List.append_cons, List.pairwise_append] at ordered
  have distinct : (new ++ [x]).Nodup := ordered.1.imp
    fun {a b} later same => absurd (same ▸ later.1) (Nat.lt_irrefl _)
  refine h.numbered.add (List.nodup_reverse.mpr distinct) ?_ ?_
  · intro k hk
    have mem : k ∈ t.stack := by
      rw [stack, List.append_cons]
      exact List.mem_append_left _ (List.mem_reverse.mp hk)
    exact h.apart k mem
  · intro a ha b
    rw [List.mem_reverse] at ha ⊢
    exact u.mem_block_iff h origin all stack crossing top ha b

include u h origin all in
/-- The component of a key that leads no farther back than to itself is complete. -/
theorem complete (top : t.mark x = t.place x) :
    Sound g path (t.complete x) ∧ Connected g x s (t.complete x) := by
  obtain ⟨new, stack, crossing⟩ := u.grown
  obtain ⟨above, below, apart⟩ := h.above stack
  have notMem : x ∉ new := fun mem => Nat.lt_irrefl _ (above x mem).1
  have done : ∀ k, (t.complete x).Done k ↔ k ∈ new ++ [x] ∨ t.Done k :=
    fun k => done_complete_iff stack notMem
  have stacked : ∀ k, k ∈ t.stack ↔ k ∈ new ++ [x] ∨ k ∈ s.stack := by
    intro k
    rw [stack, List.append_cons, List.mem_append]
  have gone : ∀ k ∈ new ++ [x], k ∉ s.stack := by
    intro k hk hs
    rcases List.mem_append.mp hk with hk | hk
    · exact Nat.lt_irrefl _ (apart k hk k hs)
    · exact Nat.lt_irrefl _ (below x (List.mem_singleton.mp hk ▸ hs)).1
  have ordered := h.order
  rw [stack, List.append_cons, List.pairwise_append] at ordered
  rw [complete_eq stack notMem] at done ⊢
  refine ⟨?_, h.met_of_mem u.mem_stack, u.kept, u.place_eq, ⟨[], rfl, by simp⟩, Or.inl top⟩
  exact {
    met_iff := by
      intro k
      rw [done, ← or_assoc, or_comm (a := k ∈ s.stack), ← stacked]
      exact h.met_iff k
    apart := by
      intro k hk hd
      rcases (done k).mp hd with hd | hd
      · exact gone k hd hk
      · exact h.apart k ((stacked k).mpr (Or.inr hk)) hd
    keys := h.keys
    marked := h.marked
    onStack := by
      intro k
      rw [List.mem_filter, h.onStack, stacked]
      constructor
      · rintro ⟨hk | hk, other⟩
        · exact absurd hk (of_decide_eq_true other)
        · exact hk
      · exact fun hk => ⟨Or.inr hk, decide_eq_true fun mem => gone k mem hk⟩
    below := h.below
    order := ordered.2.1
    nodup := origin.nodup
    subset := origin.subset
    back := by
      intro k hk
      obtain ⟨p, hp, le, reaches⟩ := h.back k ((stacked k).mpr (Or.inr hk))
      rcases List.mem_cons.mp hp with rfl | hp
      · exact absurd (below k hk).1 (Nat.not_lt.mpr le)
      · exact ⟨p, hp, le, reaches⟩
    onward := u.onward h all
    numbered := u.numbered_block h origin all stack crossing top }

include u h origin all in
/-- A key that leads back to one below it stays on the stack. -/
theorem leave (top : t.mark x ≠ t.place x) : Sound g path t ∧ Connected g x s t := by
  have lt : t.mark x < t.place x := Nat.lt_of_le_of_ne u.le top
  obtain ⟨y, hy, same, reaches⟩ := u.reached
  obtain ⟨new, stack, crossing⟩ := u.grown
  refine ⟨{ h with nodup := origin.nodup, subset := ?_, back := ?_, onward := ?_ },
    h.met_of_mem u.mem_stack, u.kept, u.place_eq, ?_, Or.inr ⟨y, hy, same, reaches⟩⟩
  · exact fun p hp => u.subset (origin.subset hp)
  · intro k hk
    obtain ⟨p, hp, le, onto⟩ := h.back k hk
    rcases List.mem_cons.mp hp with rfl | hp
    · -- What leads to `x` leads to what `x` leads back to.
      obtain ⟨q, hq, le', onto'⟩ := h.back y hy
      rcases List.mem_cons.mp hq with rfl | hq
      · omega
      · exact ⟨q, hq, by omega, onto.trans (reaches.trans onto')⟩
    · exact ⟨p, hp, le, onto⟩
  · exact u.onward h all
  · refine ⟨new ++ [x], by rw [stack, List.append_cons], ?_⟩
    intro y hy z edge back
    rcases List.mem_append.mp hy with hy | hy
    · exact crossing y hy z edge back
    · rw [List.mem_singleton.mp hy] at edge
      exact (u.seen z (all z edge)).2 back

end Underway

end Tarjan

end ToolGateway
