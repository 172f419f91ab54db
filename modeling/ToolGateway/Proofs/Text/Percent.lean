import Mathlib.Tactic.SplitIfs
import ToolGateway.Proofs.Text.Utf8
import ToolGateway.Text.Percent

/-!
# Percent-encoding is read back

A text comes back from its encoded form when the percent sign is among the characters that are
encoded (`decode_encode`). An encoded text consists of characters that were kept and of escapes
(`of_mem_encode`), and a text of characters that are kept is its own encoded form
(`encode_of_kept`).
-/

namespace ToolGateway

/-! ### ASCII -/

theorem Utf8.encodeChar_of_ascii {c : Char} (h : c.toNat < 128) :
    encodeChar c = [UInt8.ofNat c.toNat] := if_pos h

/-- Only the bytes of ASCII are below 128. -/
theorem Utf8.toNat_of_mem_encodeChar {b : UInt8} {c : Char} (h : b ∈ encodeChar c)
    (low : b.toNat < 128) : c.toNat = b.toNat := by
  have bound := toNat_lt c
  have byte : ∀ n < 256, b = UInt8.ofNat n → b.toNat = n := by
    rintro n hn rfl
    exact UInt8.toNat_ofNat_of_lt' hn
  have tail : ∀ k, b ≠ UInt8.ofNat (0x80 + (c.toNat / Nat.pow 64 k) % 64) := by
    intro k same
    have := byte _ (by omega) same
    omega
  have lead : ∀ n, 0xC0 ≤ n → n < 256 → b ≠ UInt8.ofNat n := by
    intro n above below same
    have := byte n below same
    omega
  unfold encodeChar at h
  dsimp only at h
  split_ifs at h <;> simp only [List.mem_cons, List.not_mem_nil, or_false] at h
  · exact (byte _ (by omega) h).symm
  · rcases h with h | h
    · exact absurd h (lead _ (by omega) (by omega))
    · exact absurd h (tail _)
  · rcases h with h | h | h
    · exact absurd h (lead _ (by omega) (by omega))
    · exact absurd h (tail _)
    · exact absurd h (tail _)
  · rcases h with h | h | h | h
    · exact absurd h (lead _ (by omega) (by omega))
    · exact absurd h (tail _)
    · exact absurd h (tail _)
    · exact absurd h (tail _)

/-- What holds of the ASCII characters can be computed. -/
theorem forall_ascii {P : Char → Prop} (h : ∀ n < 128, P (Char.ofNat n)) {c : Char}
    (ascii : c.toNat < 128) : P c := by
  have at_c := h c.toNat ascii
  rwa [Char.ofNat_toNat] at at_c

theorem toNat_byte {n : Nat} (h : n < 128) : (UInt8.ofNat n).toNat = n :=
  UInt8.toNat_ofNat_of_lt' (Nat.lt_trans h (by decide))

theorem ofNat_byte {c : Char} (h : c.toNat < 128) : Char.ofNat (UInt8.ofNat c.toNat).toNat = c := by
  rw [toNat_byte h, Char.ofNat_toNat]

theorem toNat_ofNat {n : Nat} (h : n < 128) : (Char.ofNat n).toNat = n := by
  have all : ∀ n < 128, (Char.ofNat n).toNat = n := by decide
  exact all n h

namespace Percent

variable {keep : UInt8 → Bool} {c : Char} {s t : String}

/-! ### Encoding -/

theorem toList_encode (keep : UInt8 → Bool) (s : String) :
    (encode keep s).toList = s.toList.flatMap fun c => encodeBytes keep (Utf8.encodeChar c) := by
  rw [encode, String.toList_ofList, encodeBytes, Utf8.encode, List.flatMap_assoc]
  rfl

theorem encode_append (keep : UInt8 → Bool) (s t : String) :
    encode keep (s ++ t) = encode keep s ++ encode keep t := by
  rw [← String.toList_inj, String.toList_append]
  simp only [toList_encode, String.toList_append, List.flatMap_append]

/-- Whether a character is kept. -/
def Keeps (keep : UInt8 → Bool) (c : Char) : Prop :=
  c.toNat < 128 ∧ keep (UInt8.ofNat c.toNat) = true

instance : Decidable (Keeps keep c) := inferInstanceAs (Decidable (_ ∧ _))

theorem Keeps.encodeBytes (h : Keeps keep c) : encodeBytes keep (Utf8.encodeChar c) = [c] := by
  rw [Utf8.encodeChar_of_ascii h.1, Percent.encodeBytes, List.flatMap_singleton, if_pos h.2,
    ofNat_byte h.1]

/-- A text of characters that are kept is its own encoded form. -/
theorem encode_of_kept (h : ∀ c ∈ s.toList, Keeps keep c) : encode keep s = s := by
  rw [← String.toList_inj, toList_encode]
  generalize s.toList = cs at h
  induction cs with
  | nil => rfl
  | cons c cs ih =>
    rw [List.flatMap_cons, (h c List.mem_cons_self).encodeBytes,
      ih fun d hd => h d (List.mem_cons_of_mem c hd)]
    rfl

/-- Whether a character stands in an escape. -/
def InEscape (c : Char) : Prop := c = '%' ∨ ∃ n < 16, c = hexUpper n

theorem inEscape_of_mem_escape {b : UInt8} (h : c ∈ escape b) : InEscape c := by
  have := b.toNat_lt
  simp only [escape, List.mem_cons, List.not_mem_nil, or_false] at h
  rcases h with h | h | h
  · exact Or.inl h
  · exact Or.inr ⟨_, by omega, h⟩
  · exact Or.inr ⟨_, by omega, h⟩

/-- What stands in an encoded text was kept, or stands in an escape. -/
theorem of_mem_encode (ascii : ∀ b, keep b = true → b.toNat < 128)
    (h : c ∈ (encode keep s).toList) : (c ∈ s.toList ∧ Keeps keep c) ∨ InEscape c := by
  rw [toList_encode, List.mem_flatMap] at h
  obtain ⟨d, hd, h⟩ := h
  obtain ⟨b, hb, h⟩ := List.mem_flatMap.mp h
  split at h
  · next kept =>
    have low := ascii b kept
    have same : d = Char.ofNat b.toNat := by
      rw [← Utf8.toNat_of_mem_encodeChar hb low, Char.ofNat_toNat]
    rw [List.mem_singleton.mp h]
    refine Or.inl ⟨same ▸ hd, ?_, ?_⟩
    · rwa [toNat_ofNat low]
    · rwa [toNat_ofNat low, UInt8.ofNat_toNat]
  · exact Or.inr (inEscape_of_mem_escape h)

theorem mem_of_inEscape (h : InEscape c) : c ∈ "%0123456789ABCDEF".toList := by
  rcases h with rfl | ⟨n, hn, rfl⟩
  · decide
  · have all : ∀ n < 16, hexUpper n ∈ "%0123456789ABCDEF".toList := by decide
    exact all n hn

/-- What holds of every character that is kept and in escapes holds in an encoded text. -/
theorem forall_mem_encode {P : Char → Prop} (ascii : ∀ b, keep b = true → b.toNat < 128)
    (kept : ∀ n < 128, keep (UInt8.ofNat n) = true → P (Char.ofNat n))
    (escape : ∀ c ∈ "%0123456789ABCDEF".toList, P c) (h : c ∈ (encode keep s).toList) : P c := by
  rcases of_mem_encode ascii h with ⟨-, low, keeps⟩ | inEscape
  · rw [← Char.ofNat_toNat c]
    exact kept c.toNat low keeps
  · exact escape c (mem_of_inEscape inEscape)

/-! ### Decoding -/

theorem decodeBytesBy_cons_of_ne {pair? : UInt8 → UInt8 → Option UInt8} {b : UInt8} (h : b ≠ 37)
    (rest : List UInt8) : decodeBytesBy pair? (b :: rest) = b :: decodeBytesBy pair? rest := by
  match rest with
  | [] => rfl
  | [_] => rfl
  | _ :: _ :: _ => exact if_neg h

/-- Bytes without percent signs are left alone. -/
theorem decodeBytesBy_of_notMem {pair? : UInt8 → UInt8 → Option UInt8} {bytes : List UInt8}
    (h : 37 ∉ bytes) : decodeBytesBy pair? bytes = bytes := by
  induction bytes with
  | nil => rfl
  | cons b bytes ih =>
    obtain ⟨first, rest⟩ := not_or.mp (fun m => h (List.mem_cons.mpr m))
    rw [decodeBytesBy_cons_of_ne (Ne.symm first), ih rest]

/-- Only a percent sign has the byte of one. -/
theorem notMem_encode {s : String} (h : '%' ∉ s.toList) : 37 ∉ Utf8.encode s := by
  rw [Utf8.encode, List.mem_flatMap]
  rintro ⟨c, hc, byte⟩
  have same : c = '%' := Char.toNat_inj.mp (Utf8.toNat_of_mem_encodeChar byte (by decide))
  exact h (same ▸ hc)

theorem encodeChar_hexUpper {n : Nat} (h : n < 16) :
    ∃ b, Utf8.encodeChar (hexUpper n) = [b] ∧ hexByte? b = some n := by
  have all : ∀ n < 16, Utf8.encodeChar (hexUpper n) = [UInt8.ofNat (hexUpper n).toNat] ∧
      hexByte? (UInt8.ofNat (hexUpper n).toNat) = some n := by decide
  exact ⟨_, all n h⟩

section Reading

variable {pair? : UInt8 → UInt8 → Option UInt8}

/-- Two hexadecimal digits have the meaning that they have everywhere. -/
def ReadsHex (pair? : UInt8 → UInt8 → Option UInt8) : Prop :=
  ∀ a b v, hexPair? a b = some v → pair? a b = some v

theorem readsHex_hexPair? : ReadsHex hexPair? := fun _ _ _ h => h

/-- An escape is read as its byte. -/
theorem decodeBytesBy_escape (reads : ReadsHex pair?) (b : UInt8) (rest : List UInt8) :
    decodeBytesBy pair? ((escape b).flatMap Utf8.encodeChar ++ rest) =
      b :: decodeBytesBy pair? rest := by
  have := b.toNat_lt
  obtain ⟨high, highBytes, highDigit⟩ := encodeChar_hexUpper (n := b.toNat / 16) (by omega)
  obtain ⟨low, lowBytes, lowDigit⟩ := encodeChar_hexUpper (n := b.toNat % 16) (by omega)
  have bytes : (escape b).flatMap Utf8.encodeChar ++ rest = 37 :: high :: low :: rest := by
    rw [escape, List.flatMap_cons, List.flatMap_cons, List.flatMap_singleton, highBytes, lowBytes]
    rfl
  have pair : pair? high low = some b := by
    have whole : 16 * (b.toNat / 16) + b.toNat % 16 = b.toNat := by omega
    apply reads
    simp only [hexPair?, highDigit, lowDigit, Option.bind_eq_bind, Option.bind_some, whole,
      UInt8.ofNat_toNat]
  rw [bytes, decodeBytesBy, if_pos rfl, pair]

theorem decodeBytesBy_encodeBytes (reads : ReadsHex pair?) {bytes : List UInt8}
    (safe : ∀ b ∈ bytes, keep b = true → b.toNat < 128 ∧ b ≠ 37) (rest : List UInt8) :
    decodeBytesBy pair? ((encodeBytes keep bytes).flatMap Utf8.encodeChar ++ rest) =
      bytes ++ decodeBytesBy pair? rest := by
  induction bytes with
  | nil => rfl
  | cons b bytes ih =>
    have later := ih fun d hd => safe d (List.mem_cons_of_mem b hd)
    rw [encodeBytes, List.flatMap_cons, List.flatMap_append, List.append_assoc]
    split
    · next kept =>
      obtain ⟨low, other⟩ := safe b List.mem_cons_self kept
      have single : [Char.ofNat b.toNat].flatMap Utf8.encodeChar = [b] := by
        rw [List.flatMap_singleton, Utf8.encodeChar_of_ascii (by rwa [toNat_ofNat low]),
          toNat_ofNat low, UInt8.ofNat_toNat]
      rw [single]
      exact (decodeBytesBy_cons_of_ne other _).trans (congrArg _ later)
    · exact (decodeBytesBy_escape reads b _).trans (congrArg _ later)

/-- An encoded text is read as it was, whatever comes after it. -/
theorem decodeBytesBy_encode (reads : ReadsHex pair?) {s : String}
    (safe : ∀ b ∈ Utf8.encode s, keep b = true → b.toNat < 128 ∧ b ≠ 37) (rest : List UInt8) :
    decodeBytesBy pair? (Utf8.encode (encode keep s) ++ rest) =
      Utf8.encode s ++ decodeBytesBy pair? rest := by
  have bytes := decodeBytesBy_encodeBytes reads safe rest
  rwa [encode, Utf8.encode, String.toList_ofList]

end Reading

theorem decodeBytes_encode {s : String}
    (safe : ∀ b ∈ Utf8.encode s, keep b = true → b.toNat < 128 ∧ b ≠ 37) (rest : List UInt8) :
    decodeBytes (Utf8.encode (encode keep s) ++ rest) = Utf8.encode s ++ decodeBytes rest :=
  decodeBytesBy_encode readsHex_hexPair? safe rest

/-- A text comes back from its encoded form. -/
theorem decode_encode {s : String}
    (safe : ∀ b ∈ Utf8.encode s, keep b = true → b.toNat < 128 ∧ b ≠ 37) :
    decode (encode keep s) = s := by
  have bytes := decodeBytes_encode safe []
  rw [List.append_nil] at bytes
  rw [decode, bytes]
  exact (congrArg Utf8.decodeLossy (List.append_nil _)).trans (Utf8.decodeLossy_encode s)

end Percent

end ToolGateway
