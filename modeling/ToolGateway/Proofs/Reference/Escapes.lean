import ToolGateway.Proofs.Text.Percent
import ToolGateway.Reference.Pointer

/-!
# Escapes in the fragment of a reference

The loop that decodes a fragment goes over an array of bytes by an index, and reads the two bytes
after a percent sign as a numeral. Wherever it stands in the array, it puts out what is read from the
bytes that are left (`decodeFrom?_eq`), so it looks at no byte beyond the end. The numerals that it
accepts are two hexadecimal digits, and also a plus sign and one digit (`pair?_eq`): it reads escapes
of two hexadecimal digits, and no others, exactly in the texts that have no percent sign, plus sign
and digit in a row (`ofFragment_spec`).
-/

namespace ToolGateway

namespace Percent

/-- What is read from bytes, from left to right: an escape that has a meaning as its byte, and every
other byte as itself. -/
inductive Scans (pair? : UInt8 → UInt8 → Option UInt8) : List UInt8 → List UInt8 → Prop
  | nil : Scans pair? [] []
  | escape {a b v : UInt8} {rest out : List UInt8} : pair? a b = some v → Scans pair? rest out →
      Scans pair? (37 :: a :: b :: rest) (v :: out)
  | keep {c : UInt8} {rest out : List UInt8} :
      (∀ a b more, c = 37 → rest = a :: b :: more → pair? a b = none) → Scans pair? rest out →
      Scans pair? (c :: rest) (c :: out)

variable {pair? : UInt8 → UInt8 → Option UInt8} {a b c v : UInt8} {bytes rest out : List UInt8}

theorem decodeBytesBy_of_some (h : pair? a b = some v) (rest : List UInt8) :
    decodeBytesBy pair? (37 :: a :: b :: rest) = v :: decodeBytesBy pair? rest := by
  rw [decodeBytesBy, if_pos rfl, h]

/-- A byte with which no escape begins is kept. -/
theorem decodeBytesBy_of_none
    (h : ∀ a b more, c = 37 → rest = a :: b :: more → pair? a b = none) :
    decodeBytesBy pair? (c :: rest) = c :: decodeBytesBy pair? rest := by
  by_cases percent : c = 37
  · match rest with
    | [] => rfl
    | [_] => rfl
    | a :: b :: more => rw [decodeBytesBy, if_pos percent, h a b more percent rfl]
  · exact decodeBytesBy_cons_of_ne percent rest

/-- Bytes are nothing more, or they begin with an escape, or with a byte that is kept. -/
theorem scan_cases (pair? : UInt8 → UInt8 → Option UInt8) {motive : List UInt8 → Prop}
    (bytes : List UInt8) (nil : motive [])
    (escape : ∀ a b v rest, pair? a b = some v → motive rest → motive (37 :: a :: b :: rest))
    (keep : ∀ c rest, (∀ a b more, c = 37 → rest = a :: b :: more → pair? a b = none) →
      motive rest → motive (c :: rest)) : motive bytes := by
  fun_induction decodeBytesBy pair? bytes with
  | case1 => exact nil
  | case2 a => exact keep a [] (by rintro _ _ _ - ⟨⟩) nil
  | case3 a b =>
    exact keep a [b] (by rintro _ _ _ - ⟨⟩) (keep b [] (by rintro _ _ _ - ⟨⟩) nil)
  | case4 b c rest v h ih => exact escape b c v rest h ih
  | case5 b c rest h ih =>
    refine keep 37 _ ?_ ih
    rintro _ _ _ - ⟨⟩
    exact h
  | case6 a b c rest other ih => exact keep a _ (fun _ _ _ percent => absurd percent other) ih

/-- There is one way to scan bytes. -/
theorem scans_iff : Scans pair? bytes out ↔ out = decodeBytesBy pair? bytes := by
  constructor
  · intro h
    induction h with
    | nil => rfl
    | escape found _ ih => rw [decodeBytesBy_of_some found, ih]
    | keep plain _ ih => rw [decodeBytesBy_of_none plain, ih]
  · rintro rfl
    induction bytes using scan_cases pair? with
    | nil => exact .nil
    | escape a b v rest found ih =>
      rw [decodeBytesBy_of_some found]
      exact .escape found ih
    | keep c rest plain ih =>
      rw [decodeBytesBy_of_none plain]
      exact .keep plain ih

end Percent

namespace Pointer

open Percent

/-! ### Numerals of bytes -/

/-- The byte of two hexadecimal digits, or of a plus sign and one. -/
def signedPair? (a b : UInt8) : Option UInt8 :=
  if a = 43 then (hexByte? b).map UInt8.ofNat else hexPair? a b

theorem hexValue?_eq_some {c : Char} {n : Nat} (h : hexValue? c = some n) :
    c.toNat < 128 ∧ n < 16 := by
  unfold hexValue? at h
  simp only [Char.le_def, UInt32.le_iff_toNat_le] at h
  split_ifs at h with digit lower upper <;> cases h
  · have : c.toNat ≤ 57 := digit.2
    omega
  · have : c.toNat ≤ 102 := lower.2
    omega
  · have : c.toNat ≤ 70 := upper.2
    omega

/-- A character of ASCII is a hexadecimal digit as its byte is. -/
theorem hexByte?_ofNat {c : Char} (ascii : c.toNat < 128) :
    hexByte? (UInt8.ofNat c.toNat) = hexValue? c := by
  have all : ∀ n < 128, hexByte? (UInt8.ofNat (Char.ofNat n).toNat) =
      hexValue? (Char.ofNat n) := by decide +kernel
  exact forall_ascii (P := fun c => hexByte? (UInt8.ofNat c.toNat) = hexValue? c) all ascii

/-- A byte that is a hexadecimal digit is one of ASCII. -/
theorem hexByte?_eq_some {b : UInt8} {n : Nat} (h : hexByte? b = some n) :
    b.toNat < 128 ∧ n < 16 := by
  unfold hexByte? at h
  dsimp only at h
  split_ifs at h <;> cases h <;> omega

theorem lt_of_mapM {cs : List Char} {values : List Nat} (h : cs.mapM hexValue? = some values) :
    ∀ c ∈ cs, c.toNat < 128 := by
  induction cs generalizing values with
  | nil => rintro _ ⟨⟩
  | cons d cs ih =>
    rw [List.mapM_cons, Option.bind_eq_bind, Option.bind_eq_some_iff] at h
    obtain ⟨n, digit, h⟩ := h
    obtain ⟨rest, found, -⟩ := Option.bind_eq_some_iff.mp h
    exact List.forall_mem_cons.mpr ⟨(hexValue?_eq_some digit).1, ih found⟩

theorem unsigned_cons_of_ne {c : Char} (h : c ≠ '+') (cs : List Char) :
    unsigned (c :: cs) = c :: cs := by
  rw [unsigned.eq_def]
  split
  · next same => exact absurd (List.cons.inj same).1 h
  · rfl

theorem eq_or_mem_unsigned {c : Char} {cs : List Char} (h : c ∈ cs) :
    c = '+' ∨ c ∈ unsigned cs := by
  unfold unsigned
  split
  · exact List.mem_cons.mp h
  · exact Or.inr h

/-- A numeral consists of characters of ASCII. -/
theorem ascii_of_byteOfHex? {numeral : String} {v : UInt8} (h : byteOfHex? numeral = some v) :
    ∀ c ∈ numeral.toList, c.toNat < 128 := by
  unfold byteOfHex? byteOfDigits? at h
  split at h
  · cases h
  · obtain ⟨values, digits, -⟩ := Option.bind_eq_some_iff.mp h
    intro c hc
    rcases eq_or_mem_unsigned hc with rfl | digit
    · decide
    · exact lt_of_mapM digits c digit

theorem byteOfDigits?_one (d : Char) :
    byteOfDigits? [d] = (hexValue? d).map UInt8.ofNat := by
  rw [byteOfDigits?, if_neg (by simp), List.mapM_cons, List.mapM_nil]
  cases digit : hexValue? d with
  | none => rfl
  | some n =>
    have := (hexValue?_eq_some digit).2
    have value : 16 * 0 + n = n := by omega
    have small : 16 * 0 + n < 256 := by omega
    exact (if_pos small).trans (congrArg (fun k => some (UInt8.ofNat k)) value)

theorem byteOfDigits?_two (c d : Char) : byteOfDigits? [c, d] = (do
    let high ← hexValue? c
    let low ← hexValue? d
    some (UInt8.ofNat (16 * high + low))) := by
  rw [byteOfDigits?, if_neg (by simp), List.mapM_cons, List.mapM_cons, List.mapM_nil]
  cases high : hexValue? c with
  | none => rfl
  | some m =>
    cases low : hexValue? d with
    | none => rfl
    | some n =>
      have := (hexValue?_eq_some high).2
      have := (hexValue?_eq_some low).2
      have value : 16 * (16 * 0 + m) + n = 16 * m + n := by omega
      have small : 16 * (16 * 0 + m) + n < 256 := by omega
      exact (if_pos small).trans (congrArg (fun k => some (UInt8.ofNat k)) value)

/-- A numeral of two characters has a sign and a digit, or two digits. -/
theorem byteOfHex?_two {c d : Char} (hc : c.toNat < 128) (hd : d.toNat < 128) :
    byteOfHex? (String.ofList [c, d]) =
      signedPair? (UInt8.ofNat c.toNat) (UInt8.ofNat d.toNat) := by
  rw [signedPair?, hexPair?, hexByte?_ofNat hc, hexByte?_ofNat hd, byteOfHex?, String.toList_ofList]
  by_cases signed : c = '+'
  · subst signed
    exact byteOfDigits?_one d
  · have other : UInt8.ofNat c.toNat ≠ 43 := by
      intro same
      have code := congrArg UInt8.toNat same
      rw [toNat_byte hc] at code
      exact signed (Char.toNat_inj.mp code)
    rw [unsigned_cons_of_ne signed, if_neg other, byteOfDigits?_two]

theorem exists_ascii {a : UInt8} (h : a.toNat < 128) :
    ∃ c : Char, c.toNat < 128 ∧ UInt8.ofNat c.toNat = a :=
  ⟨Char.ofNat a.toNat, by rwa [toNat_ofNat h], by rw [toNat_ofNat h, UInt8.ofNat_toNat]⟩

/-- Bytes beyond ASCII mean nothing after a percent sign. -/
theorem ascii_of_signedPair? {a b v : UInt8} (h : signedPair? a b = some v) :
    a.toNat < 128 ∧ b.toNat < 128 := by
  unfold signedPair? at h
  split at h
  · next signed =>
    obtain ⟨n, digit, -⟩ := Option.map_eq_some_iff.mp h
    exact ⟨by rw [signed]; decide, (hexByte?_eq_some digit).1⟩
  · obtain ⟨m, high, h⟩ := Option.bind_eq_some_iff.mp h
    obtain ⟨n, low, -⟩ := Option.bind_eq_some_iff.mp h
    exact ⟨(hexByte?_eq_some high).1, (hexByte?_eq_some low).1⟩

theorem ascii_of_pair? {a b v : UInt8} (h : pair? a b = some v) :
    a.toNat < 128 ∧ b.toNat < 128 := by
  obtain ⟨numeral, text, h⟩ := Option.bind_eq_some_iff.mp h
  have ascii : ∀ x ∈ Utf8.encode numeral, x.toNat < 128 := by
    intro x hx
    obtain ⟨c, hc, byte⟩ := List.mem_flatMap.mp hx
    have low := ascii_of_byteOfHex? h c hc
    rw [Utf8.encodeChar_of_ascii low, List.mem_singleton] at byte
    rwa [byte, toNat_byte low]
  rw [Utf8.decode?_eq_some_iff.mp text] at ascii
  exact ⟨ascii a (by simp), ascii b (by simp)⟩

/-- The bytes after a percent sign are a numeral exactly when they are two hexadecimal digits, or a
plus sign and one. -/
theorem pair?_eq : pair? = signedPair? := by
  funext a b
  by_cases ascii : a.toNat < 128 ∧ b.toNat < 128
  · obtain ⟨c, hc, rfl⟩ := exists_ascii ascii.1
    obtain ⟨d, hd, rfl⟩ := exists_ascii ascii.2
    have text : Utf8.encode (String.ofList [c, d]) =
        [UInt8.ofNat c.toNat, UInt8.ofNat d.toNat] := by
      rw [Utf8.encode, String.toList_ofList, List.flatMap_cons, List.flatMap_singleton,
        Utf8.encodeChar_of_ascii hc, Utf8.encodeChar_of_ascii hd]
      rfl
    rw [pair?, Utf8.decode?_eq_some_iff.mpr text]
    exact byteOfHex?_two hc hd
  · rw [Option.eq_none_iff_forall_ne_some.mpr fun v h => ascii (ascii_of_pair? h),
      Option.eq_none_iff_forall_ne_some.mpr fun v h => ascii (ascii_of_signedPair? h)]

/-! ### The loop over the bytes -/

section Loop

variable {bytes out : Array UInt8} {rest : List UInt8} {i : Nat} {a b c v : UInt8}

theorem getElem?_of_drop (left : bytes.toList.drop i = c :: rest) :
    bytes[i]? = some c ∧ bytes.toList.drop (i + 1) = rest := by
  constructor
  · have first := congrArg (·[0]?) left
    rwa [List.getElem?_drop, Array.getElem?_toList] at first
  · rw [← List.drop_drop, left]
    rfl

theorem decodeFrom?_escape (left : bytes.toList.drop i = 37 :: a :: b :: rest)
    (found : pair? a b = some v) :
    decodeFrom? bytes i out = decodeFrom? bytes (i + 3) (out.push v) := by
  obtain ⟨percent, left⟩ := getElem?_of_drop left
  obtain ⟨high, left⟩ := getElem?_of_drop left
  obtain ⟨low, -⟩ := getElem?_of_drop left
  obtain ⟨inside, -⟩ := Array.getElem?_eq_some_iff.mp low
  rw [decodeFrom?, if_pos (by omega), percent]
  simp only [high, low, found, inside, Option.bind_eq_bind, Option.bind_some, true_and, if_true]

theorem decodeFrom?_keep (left : bytes.toList.drop i = c :: rest)
    (plain : ∀ a b more, c = 37 → rest = a :: b :: more → pair? a b = none) :
    decodeFrom? bytes i out = decodeFrom? bytes (i + 1) (out.push c) := by
  obtain ⟨byte, left⟩ := getElem?_of_drop left
  obtain ⟨inside, -⟩ := Array.getElem?_eq_some_iff.mp byte
  rw [decodeFrom?, if_pos inside, byte, Option.bind_eq_bind, Option.bind_some]
  dsimp only
  split
  · next escape =>
    obtain ⟨a, b, more, rfl⟩ : ∃ a b more, rest = a :: b :: more := by
      have length := congrArg List.length left
      rw [List.length_drop, Array.length_toList] at length
      match rest with
      | [] =>
        rw [List.length_nil] at length
        omega
      | [_] =>
        rw [List.length_singleton] at length
        omega
      | a :: b :: more => exact ⟨a, b, more, rfl⟩
    obtain ⟨high, left⟩ := getElem?_of_drop left
    obtain ⟨low, -⟩ := getElem?_of_drop left
    simp only [high, low, plain a b more escape.1 rfl, Option.bind_eq_bind, Option.bind_some]
  · rfl

/-- From every index on, the loop puts out what is read from the bytes that are left. -/
theorem decodeFrom?_eq (bytes : Array UInt8) (i : Nat) (out : Array UInt8) :
    decodeFrom? bytes i out =
      some (out ++ (decodeBytesBy pair? (bytes.toList.drop i)).toArray) := by
  generalize left : bytes.toList.drop i = rest
  induction rest using scan_cases pair? generalizing i out with
  | nil =>
    have ended := List.drop_eq_nil_iff.mp left
    rw [Array.length_toList] at ended
    rw [decodeFrom?, if_neg (Nat.not_lt.mpr ended)]
    exact congrArg some Array.append_empty.symm
  | escape a b v rest found ih =>
    have later : bytes.toList.drop (i + 3) = rest := by
      rw [← List.drop_drop, left]
      rfl
    rw [decodeFrom?_escape left found, decodeBytesBy_of_some found, ih _ _ later]
    simp
  | keep c rest plain ih =>
    have later : bytes.toList.drop (i + 1) = rest := (getElem?_of_drop left).2
    rw [decodeFrom?_keep left plain, decodeBytesBy_of_none plain, ih _ _ later]
    simp

end Loop

/-! ### Fragments -/

theorem ofFragment_eq (fragment : String) : ofFragment fragment =
    Utf8.decodeLossy (decodeBytesBy pair? (Utf8.encode fragment)) := by
  unfold ofFragment
  split
  · rw [decodeFrom?_eq]
    simp
  · next plain =>
    have absent : '%' ∉ fragment.toList := by simpa [Text.mentions] using plain
    rw [decodeBytesBy_of_notMem (notMem_encode absent), Utf8.decodeLossy_encode]

/-- The slash before the first step is kept. -/
theorem ofFragment_slash (fragment : String) :
    ofFragment ("/" ++ fragment) = "/" ++ ofFragment fragment := by
  have bytes : Utf8.encode ("/" ++ fragment) = Utf8.encodeChar '/' ++ Utf8.encode fragment := by
    rw [Utf8.encode_append]
    rfl
  have kept : decodeBytesBy pair? (Utf8.encodeChar '/' ++ Utf8.encode fragment) =
      Utf8.encodeChar '/' ++ decodeBytesBy pair? (Utf8.encode fragment) :=
    decodeBytesBy_cons_of_ne (by decide) _
  rw [ofFragment_eq, ofFragment_eq, bytes, kept, Utf8.decodeLossy_encodeChar_append]

/-- Nowhere does a percent sign, a plus sign and a hexadecimal digit stand in a row. -/
def SignFree (bytes : List UInt8) : Prop :=
  ∀ d, (hexByte? d).isSome = true → ¬ [37, 43, d] <:+: bytes

theorem readsHex_signedPair? : ReadsHex signedPair? := by
  intro a b v h
  have digit : a ≠ 43 := by
    rintro rfl
    cases h
  rw [signedPair?, if_neg digit, h]

theorem signFree_cons_iff {c : UInt8} {rest : List UInt8}
    (h : ∀ d, (hexByte? d).isSome = true → ¬ [37, 43, d] <+: c :: rest) :
    SignFree (c :: rest) ↔ SignFree rest := by
  simp only [SignFree, List.infix_cons_iff, not_or]
  exact ⟨fun free d digit => (free d digit).2, fun free d digit => ⟨h d digit, free d digit⟩⟩

theorem signFree_cons_of_ne {c : UInt8} (h : c ≠ 37) (rest : List UInt8) :
    SignFree (c :: rest) ↔ SignFree rest :=
  signFree_cons_iff fun _ _ starts => h (List.cons_prefix_cons.mp starts).1.symm

theorem digits_of_hexPair? {a b v : UInt8} (h : hexPair? a b = some v) :
    (hexByte? a).isSome = true ∧ (hexByte? b).isSome = true := by
  obtain ⟨m, high, h⟩ := Option.bind_eq_some_iff.mp h
  obtain ⟨n, low, -⟩ := Option.bind_eq_some_iff.mp h
  exact ⟨Option.isSome_of_eq_some high, Option.isSome_of_eq_some low⟩

theorem ne_of_isSome_hexByte? {a : UInt8} (h : (hexByte? a).isSome = true) : a ≠ 37 ∧ a ≠ 43 := by
  constructor <;> rintro rfl <;> cases h

/-- Accepting the sign makes a difference exactly for the bytes in which it stands before a digit. -/
theorem decodeBytesBy_eq_iff (bytes : List UInt8) :
    decodeBytesBy signedPair? bytes = decodeBytesBy hexPair? bytes ↔ SignFree bytes := by
  induction bytes using scan_cases signedPair? with
  | nil => simp [decodeBytesBy, SignFree]
  | escape a b v rest found ih =>
    rw [decodeBytesBy_of_some found]
    by_cases signed : a = 43
    · subst signed
      obtain ⟨n, digit, rfl⟩ := Option.map_eq_some_iff.mp found
      have kept : decodeBytesBy hexPair? (37 :: 43 :: b :: rest) =
          37 :: decodeBytesBy hexPair? (43 :: b :: rest) :=
        decodeBytesBy_of_none (by rintro _ _ _ - ⟨⟩; rfl)
      have other : UInt8.ofNat n ≠ 37 := by
        have all : ∀ n < 16, UInt8.ofNat n ≠ 37 := by decide
        exact all n (hexByte?_eq_some digit).2
      rw [kept]
      refine iff_of_false (fun same => other (List.cons.inj same).1) fun free => ?_
      exact free b (Option.isSome_of_eq_some digit) (List.prefix_append [37, 43, b] rest).isInfix
    · have hex : hexPair? a b = some v := by rwa [signedPair?, if_neg signed] at found
      obtain ⟨high, low⟩ := digits_of_hexPair? hex
      rw [decodeBytesBy_of_some hex, List.cons_inj_right, ih, signFree_cons_iff,
        signFree_cons_of_ne (ne_of_isSome_hexByte? high).1,
        signFree_cons_of_ne (ne_of_isSome_hexByte? low).1]
      intro d _ starts
      have second := List.cons_prefix_cons.mp (List.cons_prefix_cons.mp starts).2
      exact signed second.1.symm
  | keep c rest plain ih =>
    have hexPlain : ∀ a b more, c = 37 → rest = a :: b :: more → hexPair? a b = none :=
      fun a b more percent same => Option.eq_none_iff_forall_ne_some.mpr fun v hex =>
        Option.some_ne_none v ((readsHex_signedPair? a b v hex).symm.trans
          (plain a b more percent same))
    rw [decodeBytesBy_of_none plain, decodeBytesBy_of_none hexPlain, List.cons_inj_right, ih,
      signFree_cons_iff]
    intro d digit starts
    obtain ⟨percent, starts⟩ := List.cons_prefix_cons.mp starts
    obtain ⟨more, same⟩ := starts
    have meaning := plain 43 d more percent.symm same.symm
    obtain ⟨n, value⟩ := Option.isSome_iff_exists.mp digit
    rw [signedPair?, if_pos rfl, value] at meaning
    cases meaning

/-- Decoding a fragment ends without a look beyond its bytes. The bytes that it puts out, of which it
makes a text, are read from left to right: two hexadecimal digits after a percent sign are replaced
with it by the byte that they denote, and every other byte is kept, exactly if nowhere a percent
sign, a plus sign and a hexadecimal digit stand in a row; where they do, they are replaced as well. -/
theorem ofFragment_spec (fragment : String) : ∃ out,
    decodeFrom? (Utf8.encode fragment).toArray 0 #[] = some out ∧
    ofFragment fragment = Utf8.decodeLossy out.toList ∧
    Scans signedPair? (Utf8.encode fragment) out.toList ∧
    (Scans hexPair? (Utf8.encode fragment) out.toList ↔ SignFree (Utf8.encode fragment)) := by
  refine ⟨(decodeBytesBy signedPair? (Utf8.encode fragment)).toArray, ?_, ?_, ?_, ?_⟩
  · rw [decodeFrom?_eq, pair?_eq]
    simp
  · rw [ofFragment_eq, pair?_eq]
  · exact scans_iff.mpr rfl
  · rw [scans_iff, decodeBytesBy_eq_iff]

/-- A plus sign and one digit are read as a byte. -/
theorem ofFragment_signed : ofFragment "/a%+5" = "/a\x05" ∧
    ∀ out, Scans hexPair? (Utf8.encode "/a%+5") out → ofFragment "/a%+5" ≠ Utf8.decodeLossy out := by
  have read : ofFragment "/a%+5" = "/a\x05" := by decide +kernel
  refine ⟨read, fun out scans => ?_⟩
  rw [scans_iff.mp scans, read]
  decide +kernel

end Pointer

end ToolGateway
