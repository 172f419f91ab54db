import Mathlib.Data.List.Forall2

/-!
# Steps that may fail

What is known of the steps of a computation in `Except` that came to an end.
-/

namespace ToolGateway.Except

variable {ε α β : Type}

/-- A chain of steps that may fail comes to an end only through its first step. -/
theorem ok_of_bind {x : Except ε α} {f : α → Except ε β} {b : β} (h : x >>= f = .ok b) :
    ∃ a, x = .ok a ∧ f a = .ok b := by
  cases x with
  | error e => cases h
  | ok a => exact ⟨a, rfl, h⟩

/-- A chain of steps fails in its first step or after it. -/
theorem error_of_bind {x : Except ε α} {f : α → Except ε β} {e : ε} (h : x >>= f = .error e) :
    x = .error e ∨ ∃ a, x = .ok a ∧ f a = .error e := by
  cases x with
  | error e' =>
    cases h
    exact Or.inl rfl
  | ok a => exact Or.inr ⟨a, rfl, h⟩

/-- Another wording of the error does not change a result. -/
theorem ok_of_mapError {ε' : Type} {x : Except ε α} {f : ε → ε'} {a : α}
    (h : x.mapError f = .ok a) : x = .ok a := by
  cases x with
  | error e => cases h
  | ok b =>
    cases h
    rfl

/-- A result that passes a computed test is there. -/
theorem exists_of_any {x : Except ε α} {p : α → Bool} (h : x.toOption.any p = true) :
    ∃ a, x = .ok a ∧ p a = true := by
  cases x with
  | error e => cases h
  | ok a => exact ⟨a, rfl, h⟩

/-- The error of a computation that failed. -/
def error? : Except ε α → Option ε
  | .error e => some e
  | .ok _ => none

theorem eq_error_of {x : Except ε α} {e : ε} (h : error? x = some e) : x = .error e := by
  cases x with
  | error e' => rw [Option.some.inj h]
  | ok a => cases h

/-- A step that is taken for every item of a list and never fails has a result for each of them. -/
theorem forall₂_of_mapM {f : α → Except ε β} {xs : List α} {ys : List β}
    (h : xs.mapM f = .ok ys) : List.Forall₂ (fun x y => f x = .ok y) xs ys := by
  induction xs generalizing ys with
  | nil =>
    cases h
    exact .nil
  | cons x xs ih =>
    rw [List.mapM_cons] at h
    obtain ⟨y, hy, h⟩ := ok_of_bind h
    obtain ⟨ys, hys, h⟩ := ok_of_bind h
    cases h
    exact .cons hy (ih hys)

/-- A step that fails for some item of a list fails for a first one, and succeeds for those before
it. -/
theorem exists_first_of_mapM {f : α → Except ε β} {xs : List α} {e : ε}
    (h : xs.mapM f = .error e) :
    ∃ before x after, xs = before ++ x :: after ∧ (∀ y ∈ before, ∃ b, f y = .ok b) ∧
      f x = .error e := by
  induction xs with
  | nil => cases h
  | cons x xs ih =>
    rw [List.mapM_cons] at h
    rcases error_of_bind h with here | ⟨b, hb, h⟩
    · exact ⟨[], x, xs, rfl, nofun, here⟩
    · -- The head has a result, so the failure is that of the rest.
      rcases error_of_bind h with h | ⟨_, -, h⟩
      · obtain ⟨before, y, after, rfl, fine, failed⟩ := ih h
        exact ⟨x :: before, y, after, rfl, List.forall_mem_cons.mpr ⟨⟨b, hb⟩, fine⟩, failed⟩
      · cases h

/-- Every result comes from an item of the list. -/
theorem exists_mem_of_mapM {f : α → Except ε β} {xs : List α} {ys : List β}
    (h : xs.mapM f = .ok ys) {y : β} (hy : y ∈ ys) : ∃ x ∈ xs, f x = .ok y := by
  have pairs := forall₂_of_mapM h
  clear h
  induction pairs with
  | nil => cases hy
  | @cons x y' xs ys hx _ ih =>
    rcases List.mem_cons.mp hy with rfl | hy
    · exact ⟨x, List.mem_cons_self, hx⟩
    · obtain ⟨z, hz, hfz⟩ := ih hy
      exact ⟨z, List.mem_cons_of_mem _ hz, hfz⟩

/-! ### Two computations side by side -/

/-- Two computations that end alike: both with results in a relation, or both with errors. -/
inductive Related {ε' β : Type} (E : ε → ε' → Prop) (R : α → β → Prop) :
    Except ε α → Except ε' β → Prop
  | ok {a : α} {b : β} (h : R a b) : Related E R (.ok a) (.ok b)
  | error {e : ε} {e' : ε'} (h : E e e') : Related E R (.error e) (.error e')

namespace Related

variable {ε' γ δ : Type} {E E' : ε → ε' → Prop} {R : α → β → Prop} {S : γ → δ → Prop}
  {x : Except ε α} {y : Except ε' β}

theorem bind {f : α → Except ε γ} {g : β → Except ε' δ} (h : Related E R x y)
    (next : ∀ a b, R a b → Related E S (f a) (g b)) : Related E S (x >>= f) (y >>= g) := by
  cases h with
  | ok hab => exact next _ _ hab
  | error he => exact .error he

theorem mono {R' : α → β → Prop} (h : Related E R x y) (errors : ∀ e e', E e e' → E' e e')
    (results : ∀ a b, R a b → R' a b) : Related E' R' x y := by
  cases h with
  | ok hab => exact .ok (results _ _ hab)
  | error he => exact .error (errors _ _ he)

theorem map {f : α → γ} {g : β → δ} (h : Related E R x y) (next : ∀ a b, R a b → S (f a) (g b)) :
    Related E S (x.map f) (y.map g) := by
  cases h with
  | ok hab => exact .ok (next _ _ hab)
  | error he => exact .error he

/-- The results are those of the computations. -/
theorem found (h : Related E R x y) : Related E (fun a b => R a b ∧ x = .ok a ∧ y = .ok b) x y := by
  cases h with
  | ok hab => exact .ok ⟨hab, rfl, rfl⟩
  | error he => exact .error he

/-- A computation beside itself. -/
theorem refl {E : ε → ε → Prop} {R : α → α → Prop} (errors : ∀ e, E e e) (results : ∀ a, R a a)
    (x : Except ε α) : Related E R x x := by
  cases x with
  | ok a => exact .ok (results a)
  | error e => exact .error (errors e)

end Related

end ToolGateway.Except
