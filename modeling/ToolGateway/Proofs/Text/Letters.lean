import ToolGateway.Proofs.Url.Domain
import ToolGateway.Text.Unicode.Alphanumeric

/-!
# Letters and their lowercase forms

Lowercase forms are final: no lowercase form has another one (`lowercase_of_mem_lowercase`). The
lowercase forms of letters and digits are letters and digits again, with one exception
(`isAlphanumeric_of_mem_lowercase`): the capital I with a dot above becomes an i and a combining dot,
which is no letter.
-/

namespace ToolGateway.Unicode

open Url.Domain (lower upper lowercase_of_plain plain_of_run)

variable {c d : Char} {r : CaseRun}

/-! ### Runs -/

/-- The lowercase forms of each run are characters. -/
theorem valid_caseRuns : (caseRuns.all fun r => 0 ≤ r.first + r.shift &&
    (upper r < 0xD800 || (0xDFFF < lower r && upper r < 0x110000))) = true := by
  decide +kernel

/-- The lowercase forms of each run lie in one of the ranges. -/
theorem ranged_caseRuns : (caseRuns.all fun r =>
    alphanumericRanges.any fun (a, b) => a.ble (lower r) && (upper r).ble b) = true := by
  decide +kernel

theorem bounds_of_holds (held : r.holds c.toNat = true) : r.first ≤ c.toNat ∧ c.toNat ≤ r.last := by
  simp only [CaseRun.holds, Bool.and_eq_true, decide_eq_true_eq] at held
  exact held.1

/-- The code of the lowercase form of a letter in a run. -/
theorem toNat_shift (hr : r ∈ caseRuns) (held : r.holds c.toNat = true) :
    (Char.ofNat ((c.toNat : Int) + r.shift).toNat).toNat = ((c.toNat : Int) + r.shift).toNat := by
  have valid := List.all_eq_true.mp valid_caseRuns r hr
  simp only [Bool.and_eq_true, Bool.or_eq_true, decide_eq_true_eq] at valid
  unfold lower upper at valid
  obtain ⟨above, below⟩ := bounds_of_holds held
  -- The code is no surrogate, since none lies between the forms of the first and the last letter.
  have isValid : (((c.toNat : Int) + r.shift).toNat).isValidChar := by
    unfold Nat.isValidChar
    omega
  rw [Char.ofNat, dif_pos isValid]
  rfl

/-! ### Final forms -/

/-- The lowercase form of a letter has no other lowercase form. -/
theorem lowercase_of_mem_lowercase (h : d ∈ lowercase c) : lowercase d = [d] := by
  by_cases ascii : c.toNat < 128
  · have final := forall_ascii
      (P := fun c => ((lowercase c).all fun d => lowercase d == [d]) = true) (by decide) ascii
    exact beq_iff_eq.mp (List.all_eq_true.mp final d h)
  by_cases dotted : c.toNat = 0x130
  · rw [lowercase, if_neg ascii, if_pos dotted] at h
    have all : ∀ d ∈ ['i', Char.ofNat 0x307], lowercase d = [d] := Text.forall_mem (by decide +kernel)
    exact all d h
  rw [lowercase, if_neg ascii, if_neg dotted] at h
  split at h
  · next r found =>
    have hr := List.mem_of_find?_eq_some found
    have held := List.find?_some (p := fun r : CaseRun => r.holds c.toNat) found
    rw [List.mem_singleton.mp h]
    obtain ⟨runs, undotted⟩ := plain_of_run hr held (toNat_shift hr held)
    exact lowercase_of_plain runs undotted
  · next found =>
    rw [List.mem_singleton.mp h]
    apply lowercase_of_plain _ dotted
    intro r hr
    exact Bool.eq_false_iff.mpr (List.find?_eq_none.mp found r hr)

theorem lowercase_ne_nil (c : Char) : lowercase c ≠ [] := by
  unfold lowercase
  split
  · exact List.cons_ne_nil _ _
  split
  · exact List.cons_ne_nil _ _
  split <;> exact List.cons_ne_nil _ _

/-! ### Letters and digits -/

/-- The ranges below 128 are those of the digits and letters of ASCII. -/
theorem ascii_ranges : (alphanumericRanges.all fun (a, b) =>
    Nat.ble 128 a || (a == 0x30 && b == 0x39) || (a == 0x41 && b == 0x5A) ||
      (a == 0x61 && b == 0x7A)) = true := by
  decide +kernel

theorem isAlphanumeric_of_inRanges (h : inRanges alphanumericRanges c.toNat = true) :
    isAlphanumeric c = true := by
  unfold isAlphanumeric
  split
  · next ascii =>
    obtain ⟨⟨a, b⟩, mem, inside⟩ := List.any_eq_true.mp h
    have range := List.all_eq_true.mp ascii_ranges (a, b) mem
    simp only [Bool.and_eq_true, decide_eq_true_eq] at inside
    simp only [Bool.or_eq_true, Bool.and_eq_true, Nat.ble_eq, beq_iff_eq] at range
    have bounds : (0x30 ≤ c.toNat ∧ c.toNat ≤ 0x39) ∨ (0x41 ≤ c.toNat ∧ c.toNat ≤ 0x5A) ∨
        (0x61 ≤ c.toNat ∧ c.toNat ≤ 0x7A) := by
      omega
    exact forall_ascii (P := fun c => (0x30 ≤ c.toNat ∧ c.toNat ≤ 0x39) ∨
      (0x41 ≤ c.toNat ∧ c.toNat ≤ 0x5A) ∨ (0x61 ≤ c.toNat ∧ c.toNat ≤ 0x7A) →
        c.isAlphanum = true) (by decide) ascii bounds
  · exact h

/-- The lowercase form of a letter in a run is a letter. -/
theorem isAlphanumeric_shift (hr : r ∈ caseRuns) (held : r.holds c.toNat = true) :
    isAlphanumeric (Char.ofNat ((c.toNat : Int) + r.shift).toNat) = true := by
  have ranged := List.all_eq_true.mp ranged_caseRuns r hr
  obtain ⟨⟨a, b⟩, mem, inside⟩ := List.any_eq_true.mp ranged
  simp only [Bool.and_eq_true, Nat.ble_eq] at inside
  unfold lower upper at inside
  obtain ⟨above, below⟩ := bounds_of_holds held
  apply isAlphanumeric_of_inRanges
  rw [toNat_shift hr held, inRanges]
  apply List.any_eq_true.mpr
  refine ⟨(a, b), mem, ?_⟩
  simp only [Bool.and_eq_true, decide_eq_true_eq]
  omega

/-- The lowercase forms of letters and digits are letters and digits, but for the combining dot. -/
theorem isAlphanumeric_of_mem_lowercase (letter : isAlphanumeric c = true) (plain : c ≠ 'İ')
    (h : d ∈ lowercase c) : isAlphanumeric d = true := by
  have undotted : c.toNat ≠ 0x130 := by
    intro dotted
    apply plain
    rw [← Char.ofNat_toNat c, dotted]
  by_cases ascii : c.toNat < 128
  · have letters := forall_ascii (P := fun c => isAlphanumeric c = true →
      (lowercase c).all isAlphanumeric = true) (by decide) ascii letter
    exact List.all_eq_true.mp letters d h
  rw [lowercase, if_neg ascii, if_neg undotted] at h
  split at h
  · next r found =>
    rw [List.mem_singleton.mp h]
    exact isAlphanumeric_shift (List.mem_of_find?_eq_some found)
      (List.find?_some (p := fun r : CaseRun => r.holds c.toNat) found)
  · rw [List.mem_singleton.mp h]
    exact letter

/-- The capital I with a dot above has a lowercase form with a combining dot. -/
theorem lowercase_dotted : lowercase 'İ' = ['i', Char.ofNat 0x307] := by
  decide

theorem not_isAlphanumeric_dot : isAlphanumeric (Char.ofNat 0x307) = false := by
  decide +kernel

theorem not_isAlphanumeric_underscore : isAlphanumeric '_' = false := by
  decide

end ToolGateway.Unicode
