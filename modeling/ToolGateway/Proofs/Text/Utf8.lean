import Mathlib.Data.String.Basic
import ToolGateway.Text.Utf8

/-!
# Texts and their bytes

Texts are ordered by their characters, and UTF-8 was made so that this is the order of their bytes
(`encode_lt_encode`): of two different characters the lesser one has the lesser bytes, and neither
begins with the bytes of the other. The bytes of a text are read back as that text (`decode?_encode`,
`decodeLossy_encode`), and bytes that are no text's are refused (`decode?_eq_some_iff`).
-/

namespace ToolGateway.Utf8

theorem ofNat_lt_ofNat {m n : Nat} (hm : m < 256) (hn : n < 256) :
    UInt8.ofNat m < UInt8.ofNat n ↔ m < n := by
  rw [UInt8.lt_iff_toNat_lt, UInt8.toNat_ofNat_of_lt' hm, UInt8.toNat_ofNat_of_lt' hn]

theorem ofNat_eq_ofNat {m n : Nat} (hm : m < 256) (hn : n < 256) :
    UInt8.ofNat m = UInt8.ofNat n ↔ m = n := by
  rw [← UInt8.toNat_inj, UInt8.toNat_ofNat_of_lt' hm, UInt8.toNat_ofNat_of_lt' hn]

theorem toNat_lt (c : Char) : c.toNat < 0x110000 := by
  rcases c.valid with h | ⟨-, h⟩
  · exact Nat.lt_trans h (by decide)
  · exact h

/-- Whatever follows, the bytes of the lesser character come first. -/
theorem encodeChar_append_lt {c d : Char} (h : c < d) (xs ys : List UInt8) :
    encodeChar c ++ xs < encodeChar d ++ ys := by
  have hlt : c.toNat < d.toNat := h
  have hd := toNat_lt d
  unfold encodeChar
  generalize c.toNat = m at *
  generalize d.toNat = n at *
  dsimp only
  -- The first byte tells how many follow, and it grows with their number.
  split_ifs <;> simp only [List.cons_append, List.nil_append, List.cons_lt_cons_iff] <;>
    simp (disch := omega) only [ofNat_lt_ofNat, ofNat_eq_ofNat, Nat.pow_eq] <;> omega

theorem encode_append (s t : String) : encode (s ++ t) = encode s ++ encode t := by
  rw [encode, String.toList_append, List.flatMap_append]
  rfl

theorem encodeChar_ne_nil (c : Char) : encodeChar c ≠ [] := by
  unfold encodeChar
  dsimp only
  split_ifs <;> simp

theorem flatMap_lt_flatMap {xs ys : List Char} (h : xs < ys) :
    xs.flatMap encodeChar < ys.flatMap encodeChar := by
  induction xs generalizing ys with
  | nil =>
    cases ys with
    | nil => exact absurd h (List.not_lt_nil [])
    | cons d ys =>
      rw [List.flatMap_nil, List.flatMap_cons]
      cases hd : encodeChar d with
      | nil => exact absurd hd (encodeChar_ne_nil d)
      | cons b bs => exact List.nil_lt_cons b _
  | cons c xs ih =>
    cases ys with
    | nil => exact absurd h (List.not_lt_nil _)
    | cons d ys =>
      rw [List.flatMap_cons, List.flatMap_cons]
      rcases List.cons_lt_cons_iff.mp h with hlt | ⟨rfl, hlt⟩
      · exact encodeChar_append_lt hlt _ _
      · exact List.append_left_lt (ih hlt)

/-- A text comes before another one when its bytes do. -/
theorem encode_lt_encode {s t : String} : encode s < encode t ↔ s < t := by
  have mono : ∀ {s t : String}, s < t → encode s < encode t :=
    fun h => flatMap_lt_flatMap (String.lt_iff_toList_lt.mp h)
  constructor
  · intro h
    rcases lt_trichotomy s t with hlt | rfl | hgt
    · exact hlt
    · exact absurd h (List.lt_irrefl _)
    · exact absurd h (List.lt_asymm (mono hgt))
  · exact mono

/-! ### Reading back -/

section Scan

variable {b : UInt8} {bits low high k : Nat} (acc : List (Option Char)) (rest : List UInt8)

theorem scan_lead_zero (h : lead? b.toNat = some (0, bits, low, high)) :
    scan none acc (b :: rest) = scan none (some (Char.ofNat bits) :: acc) rest := by
  simp only [scan, h]

theorem scan_lead (h : lead? b.toNat = some (k + 1, bits, low, high)) :
    scan none acc (b :: rest) = scan (some ⟨k + 1, bits, low, high⟩) acc rest := by
  simp only [scan, h]

theorem scan_last (h : low ≤ b.toNat ∧ b.toNat ≤ high) :
    scan (some ⟨1, bits, low, high⟩) acc (b :: rest) =
      scan none (some (Char.ofNat (bits * 64 + (b.toNat - 0x80))) :: acc) rest := by
  simp only [scan, if_pos h, Nat.le_refl, if_true]

theorem scan_tail (h : low ≤ b.toNat ∧ b.toNat ≤ high) :
    scan (some ⟨k + 2, bits, low, high⟩) acc (b :: rest) =
      scan (some ⟨k + 1, bits * 64 + (b.toNat - 0x80), 0x80, 0xBF⟩) acc rest := by
  have more : ¬ k + 2 ≤ 1 := by omega
  simp only [scan, if_pos h, if_neg more]
  rfl

end Scan

/-- A first byte that asks for two more leaves room for the second. -/
theorem lead?_three {n : Nat} (low : 0x800 ≤ n) (high : n < 0x10000)
    (valid : n < 0xD800 ∨ 0xDFFF < n) :
    ∃ a b, lead? (0xE0 + n / 4096) = some (2, n / 4096, a, b) ∧
      a ≤ 0x80 + n / 64 % 64 ∧ 0x80 + n / 64 % 64 ≤ b := by
  unfold lead?
  rw [if_neg (by omega), if_neg (by omega)]
  by_cases first : n / 4096 = 0
  · exact ⟨0xA0, 0xBF, by rw [if_pos (by omega), first], by omega, by omega⟩
  rw [if_neg (by omega)]
  by_cases surrogate : n / 4096 = 0xD
  · exact ⟨0x80, 0x9F, by rw [if_pos (by omega), surrogate], by omega, by omega⟩
  · exact ⟨0x80, 0xBF, by rw [if_neg (by omega), if_pos (by omega), Nat.add_sub_cancel_left],
      by omega, by omega⟩

/-- A first byte that asks for three more leaves room for the second. -/
theorem lead?_four {n : Nat} (low : 0x10000 ≤ n) (high : n < 0x110000) :
    ∃ a b, lead? (0xF0 + n / 262144) = some (3, n / 262144, a, b) ∧
      a ≤ 0x80 + n / 4096 % 64 ∧ 0x80 + n / 4096 % 64 ≤ b := by
  unfold lead?
  rw [if_neg (by omega), if_neg (by omega), if_neg (by omega), if_neg (by omega), if_neg (by omega)]
  by_cases first : n / 262144 = 0
  · exact ⟨0x90, 0xBF, by rw [if_pos (by omega), first], by omega, by omega⟩
  rw [if_neg (by omega)]
  by_cases last : n / 262144 = 4
  · exact ⟨0x80, 0x8F, by rw [if_neg (by omega), if_pos (by omega), last], by omega, by omega⟩
  · exact ⟨0x80, 0xBF, by rw [if_pos (by omega), Nat.add_sub_cancel_left], by omega, by omega⟩

/-- The bytes of a character are read as that character, whatever comes after them. -/
theorem scan_encodeChar (c : Char) (acc : List (Option Char)) (rest : List UInt8) :
    scan none acc (encodeChar c ++ rest) = scan none (some c :: acc) rest := by
  have high := toNat_lt c
  have valid : c.toNat < 0xD800 ∨ 0xDFFF < c.toNat := by
    rcases c.valid with h | ⟨h, -⟩
    · exact Or.inl h
    · exact Or.inr h
  have whole : ∀ n, n = c.toNat → Char.ofNat n = c := by
    rintro n rfl
    exact Char.ofNat_toNat c
  have byte : ∀ n < 256, (UInt8.ofNat n).toNat = n := fun n h => UInt8.toNat_ofNat_of_lt' h
  unfold encodeChar
  generalize c.toNat = n at *
  -- One case for each number of bytes.
  by_cases one : n < 0x80
  · have lead : lead? (UInt8.ofNat n).toNat = some (0, n, 0x80, 0xBF) := by
      rw [byte n (by omega)]
      exact if_pos one
    simp only [if_pos one, List.cons_append, List.nil_append]
    rw [scan_lead_zero _ _ lead, whole n rfl]
  by_cases two : n < 0x800
  · have lead : lead? (UInt8.ofNat (0xC0 + n / 64)).toNat = some (1, n / 64, 0x80, 0xBF) := by
      rw [byte _ (by omega), lead?, if_neg (by omega), if_pos (by omega), Nat.add_sub_cancel_left]
    have tail := byte (0x80 + n % 64) (by omega)
    simp only [if_neg one, if_pos two, List.cons_append, List.nil_append, Nat.pow_eq,
      Nat.pow_zero, Nat.div_one]
    rw [scan_lead _ _ lead, scan_last _ _ (by omega), tail, whole _ (by omega)]
  by_cases three : n < 0x10000
  · obtain ⟨a, b, lead, above, below⟩ := lead?_three (by omega) three valid
    rw [← byte (0xE0 + n / 4096) (by omega)] at lead
    have second := byte (0x80 + n / 64 % 64) (by omega)
    have third := byte (0x80 + n % 64) (by omega)
    simp only [if_neg one, if_neg two, if_pos three, List.cons_append, List.nil_append, Nat.pow_eq,
      Nat.pow_zero, Nat.pow_one, Nat.div_one]
    rw [scan_lead _ _ lead, scan_tail _ _ (by omega), scan_last _ _ (by omega), second, third,
      whole _ (by omega)]
  · obtain ⟨a, b, lead, above, below⟩ := lead?_four (by omega) high
    rw [← byte (0xF0 + n / 262144) (by omega)] at lead
    have second := byte (0x80 + n / 4096 % 64) (by omega)
    have third := byte (0x80 + n / 64 % 64) (by omega)
    have fourth := byte (0x80 + n % 64) (by omega)
    simp only [if_neg one, if_neg two, if_neg three, List.cons_append, List.nil_append, Nat.pow_eq,
      Nat.pow_zero, Nat.pow_one, Nat.div_one, Nat.reducePow]
    rw [scan_lead _ _ lead, scan_tail _ _ (by omega), scan_tail _ _ (by omega),
      scan_last _ _ (by omega), second, third, fourth, whole _ (by omega)]

/-- What was read before stays behind what is read. -/
theorem scan_eq_append (pending : Option Pending) (acc : List (Option Char)) (bytes : List UInt8) :
    scan pending acc bytes = scan pending [] bytes ++ acc := by
  induction bytes generalizing pending acc with
  | nil =>
    unfold scan
    split <;> rfl
  | cons b rest ih =>
    have more : ∀ (p : Option Pending) (new : List (Option Char)),
        scan p (new ++ acc) rest = scan p new rest ++ acc := by
      intro p new
      rw [ih p (new ++ acc), ih p new, List.append_assoc]
    cases pending with
    | none =>
      simp only [scan]
      split
      · exact more _ [_]
      · exact more _ [_]
      · exact more _ []
    | some p =>
      simp only [scan]
      split
      · split
        · exact more _ [_]
        · exact more _ []
      · split
        · exact more _ [_, _]
        · exact more _ [_, _]
        · exact more _ [_]

theorem scan_flatMap (cs : List Char) (acc : List (Option Char)) :
    scan none acc (cs.flatMap encodeChar) = (cs.map some).reverse ++ acc := by
  induction cs generalizing acc with
  | nil => rfl
  | cons c cs ih => rw [List.flatMap_cons, scan_encodeChar, ih, List.map_cons, List.reverse_cons,
      List.append_assoc, List.singleton_append]

theorem pieces_encode (s : String) : pieces (encode s) = s.toList.map some := by
  rw [pieces, encode, scan_flatMap, List.append_nil, List.reverse_reverse]

theorem decode?_encode (s : String) : decode? (encode s) = some s := by
  have all : ∀ cs : List Char, (cs.map some).mapM id = some cs := by
    intro cs
    induction cs with
    | nil => rfl
    | cons c cs ih => simp [ih]
  rw [decode?, pieces_encode, all, Option.map_some, String.ofList_toList]

theorem decodeLossy_encode (s : String) : decodeLossy (encode s) = s := by
  rw [decodeLossy, pieces_encode, List.map_map]
  exact (congrArg String.ofList (List.map_id _)).trans (String.ofList_toList)

/-- A character at the beginning is read as it is. -/
theorem decodeLossy_encodeChar_append (c : Char) (bytes : List UInt8) :
    decodeLossy (encodeChar c ++ bytes) = String.ofList [c] ++ decodeLossy bytes := by
  rw [decodeLossy, pieces, scan_encodeChar, scan_eq_append, List.reverse_append,
    List.reverse_singleton, List.map_append, String.ofList_append]
  rfl
/-! ### Nothing else is read -/

theorem none_mem_scan {acc : List (Option Char)} (h : none ∈ acc) (pending : Option Pending)
    (bytes : List UInt8) : none ∈ scan pending acc bytes := by
  induction bytes generalizing pending acc with
  | nil =>
    unfold scan
    split
    · exact List.mem_cons_of_mem _ h
    · exact h
  | cons b rest ih =>
    have more : ∀ x : Option Char, none ∈ x :: acc := fun x => List.mem_cons_of_mem x h
    cases pending with
    | none =>
      simp only [scan]
      split
      · exact ih (more _) _
      · exact ih (more _) _
      · exact ih h _
    | some p =>
      simp only [scan]
      split
      · split
        · exact ih (more _) _
        · exact ih h _
      · split <;> exact ih (by simp) _

/-- A sequence under way goes on with a byte in its range, or a piece of it is not UTF-8. -/
theorem none_mem_scan_or (p : Pending) (acc : List (Option Char)) (bytes : List UInt8) :
    none ∈ scan (some p) acc bytes ∨
      ∃ b rest, bytes = b :: rest ∧ p.low ≤ b.toNat ∧ b.toNat ≤ p.high := by
  cases bytes with
  | nil => exact Or.inl (by simp [scan])
  | cons b rest =>
    by_cases h : p.low ≤ b.toNat ∧ b.toNat ≤ p.high
    · exact Or.inr ⟨b, rest, rfl, h⟩
    · left
      simp only [scan, if_neg h]
      split <;> exact none_mem_scan (by simp) _ _

/-- What a first byte says: one case for each number of bytes that follow. -/
theorem lead?_spec {n k bits low high : Nat} (h : lead? n = some (k, bits, low, high)) :
    0x80 ≤ low ∧ high ≤ 0xBF ∧
      (k = 0 ∧ n = bits ∧ bits < 0x80 ∨
        k = 1 ∧ n = 0xC0 + bits ∧ 2 ≤ bits ∧ bits < 0x20 ∨
        k = 2 ∧ n = 0xE0 + bits ∧ bits < 0x10 ∧ (bits = 0 → 0xA0 ≤ low) ∧
          (bits = 0xD → high ≤ 0x9F) ∨
        k = 3 ∧ n = 0xF0 + bits ∧ bits ≤ 4 ∧ (bits = 0 → 0x90 ≤ low) ∧
          (bits = 4 → high ≤ 0x8F)) := by
  unfold lead? at h
  split_ifs at h <;>
  simp only [Option.some.injEq, Prod.mk.injEq] at h <;>
  omega

section

variable {n : Nat}

theorem toNat_ofNat_of_valid (h : n < 0xD800 ∨ 0xDFFF < n ∧ n < 0x110000) :
    (Char.ofNat n).toNat = n := by
  have valid : n.isValidChar := h
  rw [Char.ofNat, dif_pos valid]
  rfl

theorem encodeChar_two (low : 0x80 ≤ n) (high : n < 0x800) :
    encodeChar (Char.ofNat n) = [UInt8.ofNat (0xC0 + n / 64), UInt8.ofNat (0x80 + n % 64)] := by
  simp only [encodeChar, toNat_ofNat_of_valid (Or.inl (by omega : n < 0xD800)),
    if_neg (by omega : ¬n < 0x80), if_pos high, Nat.pow_eq, Nat.pow_zero, Nat.div_one]

theorem encodeChar_three (low : 0x800 ≤ n) (high : n < 0x10000)
    (valid : n < 0xD800 ∨ 0xDFFF < n) :
    encodeChar (Char.ofNat n) = [UInt8.ofNat (0xE0 + n / 4096), UInt8.ofNat (0x80 + n / 64 % 64),
      UInt8.ofNat (0x80 + n % 64)] := by
  have valid : n < 0xD800 ∨ 0xDFFF < n ∧ n < 0x110000 := by omega
  simp only [encodeChar, toNat_ofNat_of_valid valid, if_neg (by omega : ¬n < 0x80),
    if_neg (by omega : ¬n < 0x800), if_pos high, Nat.pow_eq, Nat.pow_zero, Nat.pow_one,
    Nat.div_one]

theorem encodeChar_four (low : 0x10000 ≤ n) (high : n < 0x110000) :
    encodeChar (Char.ofNat n) = [UInt8.ofNat (0xF0 + n / 262144),
      UInt8.ofNat (0x80 + n / 4096 % 64), UInt8.ofNat (0x80 + n / 64 % 64),
      UInt8.ofNat (0x80 + n % 64)] := by
  have valid : n < 0xD800 ∨ 0xDFFF < n ∧ n < 0x110000 := by omega
  simp only [encodeChar, toNat_ofNat_of_valid valid, if_neg (by omega : ¬n < 0x80),
    if_neg (by omega : ¬n < 0x800), if_neg (by omega : ¬n < 0x10000), Nat.pow_eq, Nat.pow_zero,
    Nat.pow_one, Nat.div_one, Nat.reducePow]

theorem ofNat_eq_of_toNat {b : UInt8} (h : b.toNat = n) : UInt8.ofNat n = b := by
  rw [← h, UInt8.ofNat_toNat]

end

/-- Bytes begin with those of a character, or a piece of them is not UTF-8. -/
theorem none_mem_scan_or_encodeChar (acc : List (Option Char)) (b : UInt8) (rest : List UInt8) :
    none ∈ scan none acc (b :: rest) ∨ ∃ c after, b :: rest = encodeChar c ++ after := by
  cases lead : lead? b.toNat with
  | none =>
    left
    simp only [scan, lead]
    exact none_mem_scan List.mem_cons_self _ _
  | some asked =>
    obtain ⟨k, bits, low, high⟩ := asked
    obtain ⟨tail, tail', zero | one | two | three⟩ := lead?_spec lead
    · obtain ⟨rfl, first, small⟩ := zero
      right
      refine ⟨Char.ofNat bits, rest, ?_⟩
      simp only [encodeChar, toNat_ofNat_of_valid (Or.inl (by omega : bits < 0xD800)), if_pos small,
        ofNat_eq_of_toNat first, List.cons_append, List.nil_append]
    · obtain ⟨rfl, first, some, small⟩ := one
      rw [scan_lead _ _ lead]
      rcases none_mem_scan_or ⟨1, bits, low, high⟩ acc rest with bad | ⟨b₂, rest, rfl, range⟩
      · exact Or.inl bad
      right
      dsimp only at range
      refine ⟨Char.ofNat (bits * 64 + (b₂.toNat - 0x80)), rest, ?_⟩
      rw [encodeChar_two (by omega) (by omega), ofNat_eq_of_toNat (b := b) (by omega),
        ofNat_eq_of_toNat (b := b₂) (by omega)]
      rfl
    · obtain ⟨rfl, first, small, above, below⟩ := two
      rw [scan_lead _ _ lead]
      rcases none_mem_scan_or ⟨2, bits, low, high⟩ acc rest with bad | ⟨b₂, rest, rfl, range⟩
      · exact Or.inl bad
      rw [scan_tail _ _ range]
      rcases none_mem_scan_or ⟨1, bits * 64 + (b₂.toNat - 0x80), 0x80, 0xBF⟩ acc rest with
        bad | ⟨b₃, rest, rfl, range₃⟩
      · exact Or.inl bad
      right
      dsimp only at range range₃
      refine ⟨Char.ofNat ((bits * 64 + (b₂.toNat - 0x80)) * 64 + (b₃.toNat - 0x80)), rest, ?_⟩
      rw [encodeChar_three (by omega) (by omega) (by omega), ofNat_eq_of_toNat (b := b) (by omega),
        ofNat_eq_of_toNat (b := b₂) (by omega), ofNat_eq_of_toNat (b := b₃) (by omega)]
      rfl
    · obtain ⟨rfl, first, small, above, below⟩ := three
      rw [scan_lead _ _ lead]
      rcases none_mem_scan_or ⟨3, bits, low, high⟩ acc rest with bad | ⟨b₂, rest, rfl, range⟩
      · exact Or.inl bad
      rw [scan_tail _ _ range]
      rcases none_mem_scan_or ⟨2, bits * 64 + (b₂.toNat - 0x80), 0x80, 0xBF⟩ acc rest with
        bad | ⟨b₃, rest, rfl, range₃⟩
      · exact Or.inl bad
      rw [scan_tail _ _ range₃]
      rcases none_mem_scan_or
          ⟨1, (bits * 64 + (b₂.toNat - 0x80)) * 64 + (b₃.toNat - 0x80), 0x80, 0xBF⟩ acc rest with
        bad | ⟨b₄, rest, rfl, range₄⟩
      · exact Or.inl bad
      right
      dsimp only at range range₃ range₄
      refine ⟨Char.ofNat (((bits * 64 + (b₂.toNat - 0x80)) * 64 + (b₃.toNat - 0x80)) * 64 +
        (b₄.toNat - 0x80)), rest, ?_⟩
      rw [encodeChar_four (by omega) (by omega), ofNat_eq_of_toNat (b := b) (by omega),
        ofNat_eq_of_toNat (b := b₂) (by omega), ofNat_eq_of_toNat (b := b₃) (by omega),
        ofNat_eq_of_toNat (b := b₄) (by omega)]
      rfl

/-- Bytes without a piece that is not UTF-8 are those of characters. -/
theorem exists_flatMap_encodeChar (bytes : List UInt8) {acc : List (Option Char)}
    (h : none ∉ scan none acc bytes) : ∃ cs : List Char, bytes = cs.flatMap encodeChar := by
  match bytes with
  | [] => exact ⟨[], rfl⟩
  | b :: rest =>
    rcases none_mem_scan_or_encodeChar acc b rest with bad | ⟨c, after, whole⟩
    · exact absurd bad h
    · rw [whole, scan_encodeChar] at h
      have shorter : after.length < rest.length + 1 := by
        have total := congrArg List.length whole
        have := List.length_pos_iff.mpr (encodeChar_ne_nil c)
        rw [List.length_append, List.length_cons] at total
        omega
      obtain ⟨cs, same⟩ := exists_flatMap_encodeChar after h
      exact ⟨c :: cs, by rw [whole, same, List.flatMap_cons]⟩
termination_by bytes.length

theorem mapM_id_eq_none {α : Type} {xs : List (Option α)} (h : none ∈ xs) : xs.mapM id = none := by
  induction xs with
  | nil => cases h
  | cons x xs ih =>
    rw [List.mapM_cons]
    cases x with
    | none => rfl
    | some x => simp [ih (by simpa using h)]

/-- Bytes are read as a text exactly when they are those of the text. -/
theorem decode?_eq_some_iff {bytes : List UInt8} {s : String} :
    decode? bytes = some s ↔ encode s = bytes := by
  constructor
  · intro h
    have whole : none ∉ pieces bytes := by
      intro bad
      rw [decode?, mapM_id_eq_none bad] at h
      cases h
    obtain ⟨cs, rfl⟩ := exists_flatMap_encodeChar bytes (mt List.mem_reverse.mpr whole)
    have same : cs.flatMap encodeChar = encode (String.ofList cs) := by
      rw [encode, String.toList_ofList]
    rw [same, decode?_encode, Option.some.injEq] at h
    rw [same, h]
  · rintro rfl
    exact decode?_encode s

end ToolGateway.Utf8
