import Mathlib.Data.List.Forall2

/-!
# Lists side by side

Two lists whose items stand in a relation one by one are searched and thinned out alike when the
tests agree on related items. Tests for equality agree when the relation is one to one. Loops over the
two lists whose steps agree end alike, also when a step may fail.
-/

namespace ToolGateway.List

open Relator (BiUnique)

variable {α β γ δ : Type} {R : α → β → Prop} {S : γ → δ → Prop} {xs : List α} {ys : List β}

/-! ### Tests that agree -/

section

variable {p : α → Bool} {q : β → Bool}

theorem any_eq (h : List.Forall₂ R xs ys) (agree : ∀ a b, R a b → p a = q b) :
    xs.any p = ys.any q := by
  induction h with
  | nil => rfl
  | cons hab _ ih => rw [List.any_cons, List.any_cons, agree _ _ hab, ih]

theorem forall₂_dropWhile (h : List.Forall₂ R xs ys) (agree : ∀ a b, R a b → p a = q b) :
    List.Forall₂ R (xs.dropWhile p) (ys.dropWhile q) := by
  induction h with
  | nil => exact .nil
  | @cons a b _ _ hab rest ih =>
    rw [List.dropWhile_cons, List.dropWhile_cons, agree a b hab]
    split
    · exact ih
    · exact .cons hab rest

theorem forall₂_filter (h : List.Forall₂ R xs ys) (agree : ∀ a b, R a b → p a = q b) :
    List.Forall₂ R (xs.filter p) (ys.filter q) := by
  apply List.rel_filter (R := R) _ h
  intro a b hab
  show p a = true ↔ q b = true
  rw [agree a b hab]

theorem rel_find? (h : List.Forall₂ R xs ys) (agree : ∀ a b, R a b → p a = q b) :
    Option.Rel R (xs.find? p) (ys.find? q) := by
  induction h with
  | nil => exact .none
  | @cons a b _ _ hab _ ih =>
    rw [List.find?_cons, List.find?_cons, agree a b hab]
    cases q b with
    | true => exact .some hab
    | false => exact ih

end

/-! ### Relations that are one to one -/

section

variable [BEq α] [LawfulBEq α] [BEq β] [LawfulBEq β] {a a' : α} {b b' : β}

theorem beq_eq (one : BiUnique R) (h : R a b) (h' : R a' b') : (a == a') = (b == b') := by
  rw [Bool.eq_iff_iff, beq_iff_eq, beq_iff_eq]
  exact Relator.rel_eq one h h'

theorem contains_eq (one : BiUnique R) (h : List.Forall₂ R xs ys) (hab : R a b) :
    xs.contains a = ys.contains b := by
  rw [Bool.eq_iff_iff, List.contains_iff_mem, List.contains_iff_mem]
  exact List.rel_mem one hab h

theorem rel_lookup (one : BiUnique R) {xs : List (α × γ)} {ys : List (β × δ)}
    (h : List.Forall₂ (fun x y => R x.1 y.1 ∧ S x.2 y.2) xs ys) (hab : R a b) :
    Option.Rel S (xs.lookup a) (ys.lookup b) := by
  induction h with
  | nil => exact .none
  | @cons x y _ _ hxy _ ih =>
    rw [List.lookup_cons, List.lookup_cons, beq_eq one hab hxy.1]
    cases b == y.1 with
    | true => exact .some hxy.2
    | false => exact ih

theorem lookup_eq (one : BiUnique R) {xs : List (α × γ)} {ys : List (β × γ)}
    (h : List.Forall₂ (fun x y => R x.1 y.1 ∧ x.2 = y.2) xs ys) (hab : R a b) :
    xs.lookup a = ys.lookup b := by
  have found := rel_lookup one h hab
  generalize xs.lookup a = x, ys.lookup b = y at found ⊢
  cases found with
  | none => rfl
  | some same => exact congrArg some same

end

/-! ### Steps that may fail -/

theorem rel_bind {x : Option α} {y : Option β} {f : α → Option γ} {f' : β → Option δ}
    (h : Option.Rel R x y) (agree : ∀ a b, R a b → Option.Rel S (f a) (f' b)) :
    Option.Rel S (x >>= f) (y >>= f') := by
  cases h with
  | none => exact .none
  | some hab => exact agree _ _ hab

theorem rel_foldlM {f : γ → α → Option γ} {f' : δ → β → Option δ} {c : γ} {d : δ}
    (h : List.Forall₂ R xs ys) (start : S c d)
    (agree : ∀ c d a b, S c d → R a b → Option.Rel S (f c a) (f' d b)) :
    Option.Rel S (xs.foldlM f c) (ys.foldlM f' d) := by
  induction h generalizing c d with
  | nil => exact .some start
  | cons hab _ ih =>
    rw [List.foldlM_cons, List.foldlM_cons]
    exact rel_bind (agree _ _ _ _ start hab) fun _ _ next => ih next

end ToolGateway.List
