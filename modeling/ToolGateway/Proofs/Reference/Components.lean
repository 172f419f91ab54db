import ToolGateway.Proofs.Reference.Search

/-!
# Components of a graph of references

When every edge leads to a key of the graph, a search from a key comes to its end, looks up no key
that has no entry, and keeps the invariant (`connect_spec`). Searches that are nested start from
different keys, so the number of keys is depth enough, and more depth changes nothing
(`components?_mono`). In whichever order the keys are read, two of them get one number exactly when
each reaches the other (`components_spec`).
-/

namespace ToolGateway

namespace Tarjan

variable {t : Tarjan}

/-! ### The whole search -/

/-- What holds of the keys done, and is kept by a step for one more key, holds when all are done. -/
theorem exists_foldlM {motive : List String → Tarjan → Prop}
    (step : Tarjan → String → Option Tarjan) (keys done : List String) (h : motive done t)
    (next : ∀ k ∈ keys, ∀ done t, motive done t → ∃ t', step t k = some t' ∧ motive (k :: done) t') :
    ∃ t', keys.foldlM step t = some t' ∧ motive (keys.reverse ++ done) t' := by
  induction keys generalizing done t with
  | nil => exact ⟨t, rfl, h⟩
  | cons k keys ih =>
    obtain ⟨t', first, h'⟩ := next k List.mem_cons_self done t h
    obtain ⟨t'', rest, h''⟩ := ih (k :: done) h' fun k' hk => next k' (List.mem_cons_of_mem k hk)
    refine ⟨t'', ?_, ?_⟩
    · rw [List.foldlM_cons, first]
      exact rest
    · rwa [List.reverse_cons, List.append_assoc]

end Tarjan

namespace ReferenceGraph

open Tarjan

variable {g : ReferenceGraph} {path : List String} {x : String} {t t' : Tarjan} {depth : Nat}

/-- A search from a key that was not met comes to its end, keeps the invariant and finds what it has
to. Nested searches start from different keys, so they are not more than there are keys. -/
theorem connect_spec (closed : g.Closed) (deep : g.keys.length ≤ depth + path.length)
    (h : Sound g path t) (hx : x ∈ g.keys) (fresh : ¬t.Met x)
    (leads : ∀ p ∈ path, g.Reaches p x) :
    ∃ t', g.connect depth x t = some t' ∧ Sound g path t' ∧ Connected g x t t' := by
  induction depth generalizing path x t with
  | zero =>
    have keys : path ⊆ g.keys := fun p hp => h.keys p (h.met_of_mem (h.subset hp))
    have all := List.subset_of_nodup_of_length_le h.nodup keys (by omega)
    exact absurd (h.met_of_mem (h.subset (all hx))) fresh
  | succ depth ih =>
    obtain ⟨t', followed, ⟨h', u⟩⟩ := exists_foldlM
      (motive := fun seen t' => Sound g (x :: path) t' ∧ Underway g x seen t t')
      (fun t next => t.follow (g.connect depth) x next) (g.next x) []
      ⟨h.enter hx fresh leads, .start fresh⟩ (by
        rintro next edge seen t' ⟨h', u⟩
        refine u.follow h' fresh (fun z hz => h.met_of_mem hz) edge fun unmet => ?_
        refine ih ?_ h' (closed x next edge) unmet ?_
        · rw [List.length_cons]
          omega
        · intro p hp
          rcases List.mem_cons.mp hp with rfl | hp
          · exact .single edge
          · exact (leads p hp).tail edge)
    have all : ∀ z ∈ g.next x, z ∈ (g.next x).reverse ++ [] := by simp
    have there : t'.Met x := h'.met_of_mem u.mem_stack
    by_cases top : t'.mark x = t'.place x
    · refine ⟨t'.complete x, ?_, u.complete h' h all top⟩
      simp only [connect, followed, h'.lookup_low there, there.lookup, Option.bind_eq_bind,
        Option.bind_some, Option.pure_def, if_pos top]
    · refine ⟨t', ?_, u.leave h' h all top⟩
      simp only [connect, followed, h'.lookup_low there, there.lookup, Option.bind_eq_bind,
        Option.bind_some, Option.pure_def, if_neg top]

/-- Searches from all keys come to an end, and then every key has a number. -/
theorem exists_components? (closed : g.Closed) (deep : g.keys.length ≤ depth) :
    ∃ table count, g.components? depth = some table ∧ g.Numbered table count ∧
      ∀ k, k ∈ table.map (·.1) ↔ k ∈ g.keys := by
  obtain ⟨t, searched, h, all⟩ := exists_foldlM
    (motive := fun seen t => Sound g [] t ∧ ∀ k ∈ seen, t.Met k)
    (fun t k => if (t.index.lookup k).isSome then some t else g.connect depth k t) g.keys []
    ⟨Sound.start, by simp⟩ (by
      rintro k hk seen t ⟨h, all⟩
      by_cases met : t.Met k
      · exact ⟨t, if_pos met, h, List.forall_mem_cons.mpr ⟨met, all⟩⟩
      · obtain ⟨t', connected, h', c⟩ := connect_spec closed deep h hk met (by simp)
        refine ⟨t', (if_neg met).trans connected, h', ?_⟩
        exact List.forall_mem_cons.mpr ⟨c.met, fun k hk => c.kept.met (all k hk)⟩)
  -- No search is under way, so there is nothing left on the stack.
  have none : ∀ k, k ∉ t.stack := by
    intro k hk
    obtain ⟨p, hp, -⟩ := h.back k hk
    cases hp
  refine ⟨t.component, t.count, by rw [components?, searched]; rfl, h.numbered, fun k => ?_⟩
  constructor
  · exact fun hk => h.keys k ((h.met_iff k).mpr (Or.inr hk))
  · intro hk
    exact ((h.met_iff k).mp (all k (by simpa using hk))).resolve_left (none k)

/-! ### Depth -/

theorem foldlM_mono {step step' : Tarjan → String → Option Tarjan} {keys : List String}
    (more : ∀ t k t', step t k = some t' → step' t k = some t')
    (h : keys.foldlM step t = some t') : keys.foldlM step' t = some t' := by
  induction keys generalizing t with
  | nil => exact h
  | cons k keys ih =>
    rw [List.foldlM_cons] at h ⊢
    obtain ⟨t₁, first, rest⟩ := Option.bind_eq_some_iff.mp h
    exact Option.bind_eq_some_iff.mpr ⟨t₁, more t k t₁ first, ih rest⟩

theorem follow_mono {visit visit' : String → Tarjan → Option Tarjan} {next : String}
    (more : ∀ k t t', visit k t = some t' → visit' k t = some t')
    (h : t.follow visit x next = some t') : t.follow visit' x next = some t' := by
  unfold follow at h ⊢
  split at h
  · next unmet =>
    obtain ⟨t₁, first, rest⟩ := Option.bind_eq_some_iff.mp h
    rw [if_pos unmet]
    exact Option.bind_eq_some_iff.mpr ⟨t₁, more next t t₁ first, rest⟩
  · next met =>
    rw [if_neg met]
    exact h

/-- A search that comes to its end does so at any greater depth, with the same result. -/
theorem connect_mono {deeper : Nat} (le : depth ≤ deeper) (h : g.connect depth x t = some t') :
    g.connect deeper x t = some t' := by
  induction depth generalizing deeper x t t' with
  | zero => cases h
  | succ depth ih =>
    obtain ⟨deeper, rfl⟩ := Nat.exists_eq_add_of_lt le
    rw [connect] at h
    show g.connect (depth + deeper + 1) x t = some t'
    rw [connect]
    obtain ⟨t₁, followed, rest⟩ := Option.bind_eq_some_iff.mp h
    refine Option.bind_eq_some_iff.mpr ⟨t₁, ?_, rest⟩
    exact foldlM_mono (fun t k t' => follow_mono fun k t t' => ih (by omega)) followed

theorem components?_mono {deeper : Nat} {table : List (String × Nat)} (le : depth ≤ deeper)
    (h : g.components? depth = some table) : g.components? deeper = some table := by
  obtain ⟨t, searched, rest⟩ := Option.bind_eq_some_iff.mp h
  refine Option.bind_eq_some_iff.mpr ⟨t, foldlM_mono (fun t k t' first => ?_) searched, rest⟩
  split at first
  · next met => rwa [if_pos met]
  · next unmet =>
    rw [if_neg unmet]
    exact connect_mono le first

/-! ### Components -/

theorem exists_numbered (closed : g.Closed) :
    ∃ count, g.Numbered g.components count ∧ ∀ k, k ∈ g.components.map (·.1) ↔ k ∈ g.keys := by
  have deep : g.keys.length ≤ g.edges.length := Nat.le_of_eq (List.length_map _)
  obtain ⟨table, count, found, numbered, all⟩ := exists_components? closed deep
  rw [components, found]
  exact ⟨count, numbered, all⟩

theorem isSome_lookup_components (closed : g.Closed) {k : String} :
    (g.components.lookup k).isSome = true ↔ k ∈ g.keys := by
  obtain ⟨_, -, all⟩ := exists_numbered closed
  rw [isSome_lookup_iff, all]

/-- Two keys have one component exactly when each reaches the other. -/
theorem component_eq_iff (closed : g.Closed) {a b : String} (ha : a ∈ g.keys) :
    g.components.lookup a = g.components.lookup b ↔ g.Reaches a b ∧ g.Reaches b a := by
  obtain ⟨_, numbered, all⟩ := exists_numbered closed
  rw [eq_comm]
  exact numbered.classes a ((all a).mpr ha) b

/-- The order in which the edges of different keys are read does not matter to where they lead. -/
theorem next_perm {g' : ReferenceGraph} (nodup : g.keys.Nodup) (order : g'.edges.Perm g.edges) :
    g'.next = g.next := by
  have nodup' : (g'.edges.map (·.1)).Nodup := ((order.map _).nodup_iff).mpr nodup
  funext k
  have same : g'.edges.lookup k = g.edges.lookup k := Option.ext fun v => by
    rw [lookup_eq_some_iff_mem nodup', lookup_eq_some_iff_mem nodup, order.mem_iff]
  rw [next, next, same]

/-- In whichever order the keys of a graph are read, the search for its components ends, and no key
is looked up that has no entry. Every key gets one number, and two of them get the same one exactly
when each reaches the other. -/
theorem components_spec {g' : ReferenceGraph} (closed : g.Closed) (nodup : g.keys.Nodup)
    (order : g'.edges.Perm g.edges) :
    ∃ table, (∀ depth, g.keys.length ≤ depth → g'.components? depth = some table) ∧
      g'.components = table ∧ (table.map (·.1)).Perm g.keys ∧
      ∀ a ∈ g.keys, ∀ b ∈ g.keys,
        table.lookup a = table.lookup b ↔ g.Reaches a b ∧ g.Reaches b a := by
  have next := next_perm nodup order
  have keys : ∀ k, k ∈ g'.keys ↔ k ∈ g.keys := fun k => (order.map _).mem_iff
  have closed' : g'.Closed := by
    intro a b edge
    rw [next] at edge
    exact (keys b).mpr (closed a b edge)
  have length : g'.keys.length = g.keys.length := (order.map _).length_eq
  obtain ⟨table, count, found, numbered, all⟩ := exists_components? closed' (Nat.le_of_eq length)
  refine ⟨table, fun depth deep => components?_mono deep found, ?_, ?_, ?_⟩
  · have size : g.keys.length = g'.edges.length := by
      rw [← length, ReferenceGraph.keys, List.length_map]
    rw [components, ← size, found, Option.getD_some]
  · refine (List.perm_ext_iff_of_nodup numbered.nodup nodup).mpr fun k => ?_
    rw [all, keys]
  · intro a ha b _
    have reaches : g'.Reaches = g.Reaches := by
      unfold Reaches
      rw [next]
    rw [eq_comm, numbered.classes a ((all a).mpr ((keys a).mpr ha)), reaches]

namespace Sample

/-- `a` and `b` lead to each other, `c` to itself, and `d` is led to only. -/
def circles : ReferenceGraph :=
  ⟨[("a", ["b", "c"]), ("b", ["d", "a"]), ("c", ["c", "d"]), ("d", [])]⟩

end Sample

theorem closed_of_edges (h : ∀ e ∈ g.edges, ∀ b ∈ e.2, b ∈ g.keys) : g.Closed := by
  intro a b edge
  rw [next] at edge
  cases found : g.edges.lookup a with
  | none =>
    rw [found] at edge
    cases edge
  | some targets =>
    rw [found] at edge
    obtain ⟨before, after, same, -⟩ := List.lookup_eq_some_iff.mp found
    exact h (a, targets) (by simp [same]) b edge

open Sample in
/-- The statement at a graph with two circles that is read from its end. -/
theorem components_spec_circles :
    circles.Closed ∧ circles.keys.Nodup ∧ circles.edges.reverse.Perm circles.edges ∧
      ∃ table, (∀ depth, circles.keys.length ≤ depth →
          (ReferenceGraph.mk circles.edges.reverse).components? depth = some table) ∧
        (ReferenceGraph.mk circles.edges.reverse).components = table ∧
        (table.map (·.1)).Perm circles.keys ∧
        ∀ a ∈ circles.keys, ∀ b ∈ circles.keys, table.lookup a = table.lookup b ↔
          circles.Reaches a b ∧ circles.Reaches b a := by
  have closed : circles.Closed := closed_of_edges (by decide)
  have nodup : circles.keys.Nodup := by decide
  have order := List.reverse_perm circles.edges
  exact ⟨closed, nodup, order, components_spec closed nodup order⟩

open Sample in
example : circles.components = [("a", 2), ("b", 2), ("c", 1), ("d", 0)] := by decide

end ReferenceGraph

end ToolGateway
