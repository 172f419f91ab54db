import Mathlib.Data.List.Forall2
import ToolGateway.Json.Basic

/-!
# Equality of JSON values

`Json.same` does not see the order of members. It is transitive on all values, also on those whose
objects repeat a key: what counts is the first member of each key.
-/

namespace ToolGateway

theorem Binary64.equals_trans {x y z : Binary64} (hxy : x.equals y = true)
    (hyz : y.equals z = true) : x.equals z = true := by
  simp only [Binary64.equals, Bool.and_eq_true, Bool.or_eq_true, beq_iff_eq] at *
  obtain ⟨hu, hs⟩ := hxy
  obtain ⟨hv, ht⟩ := hyz
  refine ⟨hu.trans hv, ?_⟩
  rcases hs with hs | hs
  · rcases ht with ht | ht
    · exact Or.inl (hs.trans ht)
    · exact Or.inr (hu.trans ht)
  · exact Or.inr hs

namespace Json

/-- Equal lists have equal items. -/
theorem sameItems_iff {xs ys : List Json} :
    sameItems xs ys = true ↔ List.Forall₂ (fun v w => same v w = true) xs ys := by
  induction xs generalizing ys with
  | nil => cases ys <;> simp [sameItems]
  | cons x xs ih => cases ys <;> simp [sameItems, ih]

/-- Members are equal when each has its equal under its key. -/
theorem sameMembers_iff {xs : List (String × Json)} {ys : Members} :
    sameMembers xs ys = true ↔ ∀ m ∈ xs, ∃ w, ys.get? m.1 = some w ∧ same m.2 w = true := by
  induction xs with
  | nil => simp [sameMembers]
  | cons x xs ih =>
    rw [sameMembers, Bool.and_eq_true, ih, List.forall_mem_cons]
    cases ys.get? x.1 <;> simp

/-- What is found under a key has its equal under the key in an equal object. -/
theorem same_of_lookup {key : String} {v : Json} :
    ∀ {xs : List (String × Json)} {ys : Members}, sameMembers xs ys = true →
      Dict.lookup key xs = some v → ∃ w, ys.get? key = some w ∧ same v w = true
  | [], _, _, hl => by simp [Dict.lookup] at hl
  | (k, u) :: rest, ys, h, hl => by
    simp only [sameMembers, Bool.and_eq_true] at h
    simp only [Dict.lookup] at hl
    split at hl
    · next hk =>
      cases hl
      subst hk
      cases hy : ys.get? k with
      | none => simp [hy] at h
      | some w => exact ⟨w, rfl, by simpa [hy] using h.1⟩
    · exact same_of_lookup h.2 hl

mutual

/-- Equality of values is transitive. -/
theorem same_trans : ∀ {a b c : Json}, same a b = true → same b c = true → same a c = true
  | .null, b, c, hab, hbc => by
    cases b <;> cases c <;> simp_all [same]
  | .bool _, b, c, hab, hbc => by
    cases b <;> cases c <;> simp_all [same]
  | .int _, b, c, hab, hbc => by
    cases b <;> cases c <;> simp_all [same]
  | .str _, b, c, hab, hbc => by
    cases b <;> cases c <;> simp_all [same]
  | .float x, b, c, hab, hbc => by
    cases b with
    | float y =>
      cases c with
      | float z => exact Binary64.equals_trans (by simpa [same] using hab) (by simpa [same] using hbc)
      | _ => simp [same] at hbc
    | _ => simp [same] at hab
  | .arr xs, b, c, hab, hbc => by
    cases b with
    | arr ys =>
      cases c with
      | arr zs =>
        simp only [same] at hab hbc ⊢
        exact sameItems_trans hab hbc
      | _ => simp [same] at hbc
    | _ => simp [same] at hab
  | .obj ⟨xs⟩, b, c, hab, hbc => by
    cases b with
    | obj ys =>
      cases c with
      | obj zs =>
        simp only [same, Bool.and_eq_true, beq_iff_eq] at hab hbc ⊢
        exact ⟨hab.1.trans hbc.1, sameMembers_trans hab.2 hbc.2⟩
      | _ => simp [same] at hbc
    | _ => simp [same] at hab

/-- Equality of items is transitive. -/
theorem sameItems_trans : ∀ {xs ys zs : List Json}, sameItems xs ys = true →
    sameItems ys zs = true → sameItems xs zs = true
  | [], ys, zs, hxy, hyz => by
    cases ys <;> cases zs <;> simp_all [sameItems]
  | x :: xs, ys, zs, hxy, hyz => by
    cases ys with
    | nil => simp [sameItems] at hxy
    | cons y ys =>
      cases zs with
      | nil => simp [sameItems] at hyz
      | cons z zs =>
        simp only [sameItems, Bool.and_eq_true] at hxy hyz ⊢
        exact ⟨same_trans hxy.1 hyz.1, sameItems_trans hxy.2 hyz.2⟩

/-- Having an equal value under every key is transitive. -/
theorem sameMembers_trans : ∀ {xs : List (String × Json)} {ys zs : Members},
    sameMembers xs ys = true → sameMembers ys.entries zs = true → sameMembers xs zs = true
  | [], _, _, _, _ => rfl
  | (k, v) :: rest, ys, zs, hxy, hyz => by
    simp only [sameMembers, Bool.and_eq_true] at hxy ⊢
    refine ⟨?_, sameMembers_trans hxy.2 hyz⟩
    cases hk : ys.get? k with
    | none => simp [hk] at hxy
    | some w =>
      have hvw : same v w = true := by simpa [hk] using hxy.1
      obtain ⟨u, hu, hwu⟩ := same_of_lookup hyz hk
      simpa [hu] using same_trans hvw hwu

end

end Json

end ToolGateway
