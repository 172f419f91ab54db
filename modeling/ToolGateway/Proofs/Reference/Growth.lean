import Mathlib.Data.List.TakeWhile
import ToolGateway.Proofs.Reference.Components
import ToolGateway.Proofs.Reference.Sources

/-!
# The graph holds everything that can be reached

The graph of a library starts from the targets in a description and adds what they lead to. Every
target that it meets is that of a reference in some document under some source, so it comes to an end
before it runs out of fuel: every edge leads to a key of the graph, every target in the description
has a key, and every key is that of a target whose own targets are next to it (`ofLibrary_spec`).
-/

namespace ToolGateway

/-- What is left of a list starts with the first item that fails the test. -/
theorem List.split_of_dropWhile {α : Type} {p : α → Bool} {l rest : List α} {a : α}
    (h : l.dropWhile p = a :: rest) :
    ∃ seen, l = seen ++ a :: rest ∧ (∀ b ∈ seen, p b = true) ∧ p a = false := by
  refine ⟨l.takeWhile p, ?_, fun b hb => List.mem_takeWhile_imp hb, ?_⟩
  · rw [← h, List.takeWhile_append_dropWhile]
  · have := List.head_dropWhile_not p (l := l) (by simp [h])
    simpa only [h, List.head_cons] using this

namespace Library

variable {l : Library} {files : Files}

/-- What a target points to stands in a document of the library, and is known by its source. -/
theorem find?_spec {t : Target} {source : Source} {v : Json} (h : l.find? t = some (source, v)) :
    source = t.source ∧ ∃ d, l.document? t.source = some d ∧ v.Within d.2 := by
  unfold find? at h
  split at h
  · cases h
  · next base v hd _ =>
    cases h
    exact ⟨rfl, _, hd, .self⟩
  · next base doc p hd _ =>
    obtain ⟨w, hw, e⟩ := Option.map_eq_some_iff.mp h
    cases e
    exact ⟨rfl, _, hd, Pointer.within_of_find? hw⟩

/-- The document of a target that is named is known by the source in the target. -/
theorem Names.reads {t : Target} (h : l.Names files t) : l.Reads files t.source := by
  obtain ⟨s, d, reads, there, mem⟩ := h
  exact .named reads there mem

theorem names_of_mem_targets {t u : Target} (named : l.Names files t)
    (h : u ∈ l.targets files t) : l.Names files u := by
  unfold targets at h
  split at h
  · next source v hf =>
    obtain ⟨rfl, d, hd, within⟩ := find?_spec hf
    exact ⟨t.source, d, named.reads, hd, Target.within_subset within h⟩
  · cases h

end Library

/-! ### Growth -/

namespace ReferenceGraph

variable {l : Library} {files : Files}

/-- A graph that grows: what is pending is named in the library, each edge belongs to a target that
is named there, and that target leads to what is pending or has a key already. -/
structure Growing (l : Library) (files : Files) (pending : List Target)
    (edges : List (String × List String)) : Prop where
  nodup : (edges.map (·.1)).Nodup
  named : ∀ t ∈ pending, l.Names files t
  edge : ∀ e ∈ edges, ∃ t, l.Names files t ∧ t.key = e.1 ∧
    e.2 = (l.targets files t).map Target.key ∧
    ∀ u ∈ l.targets files t, u ∈ pending ∨ u.key ∈ edges.map (·.1)

namespace Growing

variable {pending : List Target} {edges : List (String × List String)}

theorem length_le (h : Growing l files pending edges) (readable : l.Readable) :
    edges.length ≤ l.sourceCount files * l.referenceCount := by
  obtain ⟨keys, hlen, hkeys⟩ := Library.exists_keys files readable
  have sub : edges.map (·.1) ⊆ keys := by
    intro k hk
    obtain ⟨e, he, rfl⟩ := List.mem_map.mp hk
    obtain ⟨t, named, hkey, -⟩ := h.edge e he
    rw [← hkey]
    exact hkeys t named
  have := (List.subperm_of_subset h.nodup sub).length_le
  rw [List.length_map] at this
  exact Nat.le_trans this hlen

/-- When everything that is pending has a key, nothing is pending. -/
theorem done (h : Growing l files pending edges) (seen : ∀ t ∈ pending, t.key ∈ edges.map (·.1)) :
    Growing l files [] edges where
  nodup := h.nodup
  named := by simp
  edge := by
    intro e he
    obtain ⟨t, named, hkey, hnext, hall⟩ := h.edge e he
    refine ⟨t, named, hkey, hnext, fun u hu => Or.inr ?_⟩
    rcases hall u hu with hu | hu
    · exact seen u hu
    · exact hu

/-- A pending target gets its edge, and its own targets become pending. -/
theorem add {seen rest : List Target} {t : Target}
    (h : Growing l files (seen ++ t :: rest) edges)
    (hseen : ∀ u ∈ seen, u.key ∈ edges.map (·.1)) (hnew : t.key ∉ edges.map (·.1)) :
    Growing l files (l.targets files t ++ rest)
      (edges ++ [(t.key, (l.targets files t).map Target.key)]) where
  nodup := by
    rw [List.map_append, List.nodup_append]
    refine ⟨h.nodup, List.nodup_singleton _, ?_⟩
    rintro k hk k' hk' rfl
    rw [List.map_singleton, List.mem_singleton] at hk'
    rw [hk'] at hk
    exact hnew hk
  named := by
    intro u hu
    rcases List.mem_append.mp hu with hu | hu
    · exact Library.names_of_mem_targets (h.named t (by simp)) hu
    · exact h.named u (List.mem_append_right _ (List.mem_cons_of_mem t hu))
  edge := by
    intro e he
    rcases List.mem_append.mp he with he | he
    · obtain ⟨s, named, hkey, hnext, hall⟩ := h.edge e he
      refine ⟨s, named, hkey, hnext, fun u hu => ?_⟩
      rw [List.map_append, List.mem_append, List.mem_append]
      rcases hall u hu with hu | hu
      · rcases List.mem_append.mp hu with hu | hu
        · exact Or.inr (Or.inl (hseen u hu))
        · rcases List.mem_cons.mp hu with rfl | hu
          · exact Or.inr (Or.inr List.mem_cons_self)
          · exact Or.inl (Or.inr hu)
      · exact Or.inr (Or.inl hu)
    · cases List.mem_singleton.mp he
      refine ⟨t, h.named t (by simp), rfl, rfl, fun u hu => ?_⟩
      exact Or.inl (List.mem_append_left _ hu)

end Growing

/-- With fuel for one more key than there are references under all sources, nothing stays pending. -/
theorem grow_spec {fuel : Nat} {pending : List Target} {edges : List (String × List String)}
    (h : Growing l files pending edges) (readable : l.Readable)
    (hf : l.sourceCount files * l.referenceCount + 1 ≤ fuel + edges.length) :
    Growing l files [] (grow files l fuel pending edges) ∧
      (∀ k ∈ edges.map (·.1), k ∈ (grow files l fuel pending edges).map (·.1)) ∧
      ∀ t ∈ pending, t.key ∈ (grow files l fuel pending edges).map (·.1) := by
  induction fuel generalizing pending edges with
  -- Every edge has a reference of its own, so there cannot be so many edges.
  | zero =>
    have := h.length_le readable
    omega
  | succ fuel ih =>
    rw [grow]
    cases hd : pending.dropWhile fun t => (edges.lookup t.key).isSome with
    | nil =>
      have hseen : ∀ t ∈ pending, t.key ∈ edges.map (·.1) := by
        intro t ht
        exact isSome_lookup_iff.mp (List.dropWhile_eq_nil_iff.mp hd t ht)
      exact ⟨h.done hseen, fun k hk => hk, hseen⟩
    | cons t rest =>
      obtain ⟨seen, rfl, known, new⟩ := List.split_of_dropWhile hd
      have hseen : ∀ u ∈ seen, u.key ∈ edges.map (·.1) := by
        intro u hu
        exact isSome_lookup_iff.mp (known u hu)
      have hnew : t.key ∉ edges.map (·.1) := by
        rw [← isSome_lookup_iff, new]
        exact Bool.false_ne_true
      obtain ⟨grown, keep, added⟩ := ih (h.add hseen hnew) (by
        rw [List.length_append, List.length_singleton]
        omega)
      -- What had a key keeps it, through this round and the later ones.
      have old : ∀ k ∈ edges.map (·.1), k ∈ (grow files l fuel (l.targets files t ++ rest)
          (edges ++ [(t.key, (l.targets files t).map Target.key)])).map (·.1) := by
        intro k hk
        apply keep
        rw [List.map_append]
        exact List.mem_append_left _ hk
      refine ⟨grown, old, ?_⟩
      intro u hu
      rcases List.mem_append.mp hu with hu | hu
      · exact old _ (hseen u hu)
      · rcases List.mem_cons.mp hu with rfl | hu
        · apply keep
          rw [List.map_append]
          exact List.mem_append_right _ List.mem_cons_self
        · exact added u (List.mem_append_right _ hu)

/-- The graph of a library that holds the description where it starts. -/
theorem ofLibrary_spec (files : Files) (readable : l.Readable) {root : Source} {v : Json}
    (hd : l.document? root = some (root, v)) :
    (ofLibrary files l root v).Closed ∧
      (∀ t ∈ Target.within files root v, t.key ∈ (ofLibrary files l root v).keys) ∧
      ∀ k ∈ (ofLibrary files l root v).keys, ∃ t, l.Names files t ∧ t.key = k ∧
        (ofLibrary files l root v).next k = (l.targets files t).map Target.key := by
  have start : Growing l files (Target.within files root v) [] :=
    ⟨List.nodup_nil, fun t ht => ⟨root, (root, v), .own (Library.document?_spec hd).1, hd, ht⟩,
      by simp⟩
  obtain ⟨grown, -, added⟩ := grow_spec start readable (Nat.le_refl _)
  have edge : ∀ k ∈ (ofLibrary files l root v).keys, ∃ t, l.Names files t ∧ t.key = k ∧
      (ofLibrary files l root v).next k = (l.targets files t).map Target.key ∧
      ∀ u ∈ l.targets files t, u.key ∈ (ofLibrary files l root v).keys := by
    intro k hk
    obtain ⟨ks, hks⟩ := Option.isSome_iff_exists.mp (isSome_lookup_iff.mpr hk)
    obtain ⟨before, after, he, -⟩ := List.lookup_eq_some_iff.mp hks
    obtain ⟨t, named, hkey, hnext, hall⟩ := grown.edge (k, ks) (by
      rw [show grow _ _ _ _ _ = _ from he]
      simp)
    refine ⟨t, named, hkey, ?_, fun u hu => ?_⟩
    · rw [next, hks]
      exact hnext
    · rcases hall u hu with hu | hu
      · cases hu
      · exact hu
  refine ⟨?_, added, fun k hk => ?_⟩
  · intro a b step
    have ha : a ∈ (ofLibrary files l root v).keys := by
      rw [next] at step
      cases hl : (ofLibrary files l root v).edges.lookup a with
      | none => rw [hl] at step; cases step
      | some ks => exact isSome_lookup_iff.mp (by rw [hl]; rfl)
    obtain ⟨t, -, -, hnext, hall⟩ := edge a ha
    rw [hnext] at step
    obtain ⟨u, hu, rfl⟩ := List.mem_map.mp step
    exact hall u hu
  · obtain ⟨t, named, hkey, hnext, -⟩ := edge k hk
    exact ⟨t, named, hkey, hnext⟩

end ReferenceGraph

end ToolGateway
