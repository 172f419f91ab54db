import ToolGateway.Proofs.Request.Template

/-!
# Encoded queries

What is encoded for a URL can stand between the delimiters of a URL: it holds none of them, it is
ASCII, its percent signs start escapes, and percent-decoding gives the text back (`EncodedForm`).
So a query that is cut at its ampersands, and each part at its first equals sign, gives back the
pairs that it was made of (`encoding_lossless`).
-/

namespace ToolGateway

namespace Percent

variable {keep : UInt8 → Bool} {cs : List Char}

/-! ### Escapes -/

def hexDigits : List Char := "0123456789ABCDEFabcdef".toList

/-- Every percent sign starts an escape: two hexadecimal digits come after it. -/
def OnlyEscapes (cs : List Char) : Prop :=
  ∀ before after, cs = before ++ '%' :: after →
    ∃ high low rest, after = high :: low :: rest ∧ high ∈ hexDigits ∧ low ∈ hexDigits

theorem OnlyEscapes.nil : OnlyEscapes [] :=
  fun before _ h => absurd h.symm (List.append_ne_nil_of_right_ne_nil before (List.cons_ne_nil _ _))

theorem OnlyEscapes.cons {c : Char} (hc : c ≠ '%') (h : OnlyEscapes cs) :
    OnlyEscapes (c :: cs) := by
  intro before after same
  cases before with
  | nil => exact absurd (List.cons.inj same).1 hc
  | cons _ before => exact h before after (List.cons.inj same).2

theorem OnlyEscapes.escaped {high low : Char} (hh : high ∈ hexDigits) (hl : low ∈ hexDigits)
    (h : OnlyEscapes cs) : OnlyEscapes ('%' :: high :: low :: cs) := by
  have noDigit : '%' ∉ hexDigits := by decide +kernel
  have later : OnlyEscapes (high :: low :: cs) :=
    (h.cons (ne_of_mem_of_not_mem hl noDigit)).cons (ne_of_mem_of_not_mem hh noDigit)
  intro before after same
  cases before with
  | nil => exact ⟨high, low, cs, (List.cons.inj same).2.symm, hh, hl⟩
  | cons _ before => exact later before after (List.cons.inj same).2

theorem hexUpper_mem_hexDigits {n : Nat} (h : n < 16) : hexUpper n ∈ hexDigits := by
  have all : ∀ n < 16, hexUpper n ∈ hexDigits := by decide
  exact all n h

theorem onlyEscapes_encodeBytes (safe : ∀ b, keep b = true → b.toNat < 128 ∧ b ≠ 37)
    (bytes : List UInt8) : OnlyEscapes (encodeBytes keep bytes) := by
  induction bytes with
  | nil => exact .nil
  | cons b bytes ih =>
    rw [encodeBytes, List.flatMap_cons]
    split
    · next kept =>
      obtain ⟨low, other⟩ := safe b kept
      refine OnlyEscapes.cons ?_ ih
      rintro percent
      refine other (UInt8.toNat_inj.mp ?_)
      rw [← toNat_ofNat low, percent]
      rfl
    · have := b.toNat_lt
      exact ih.escaped (hexUpper_mem_hexDigits (by omega)) (hexUpper_mem_hexDigits (by omega))

/-! ### Encoded forms -/

/-- The characters that separate the parts of a URL, of its query and of a path template. -/
def delimiters : List Char := "/?#&=+;\x7b\x7d".toList

/-- A text in a form that can stand between delimiters and is decoded to the text. -/
structure EncodedForm (s form : String) : Prop where
  /-- Decoding gives the bytes of the text, … -/
  bytes : decodeBytes (Utf8.encode form) = Utf8.encode s
  /-- … which are UTF-8. -/
  decoded : decode form = s
  ascii : ∀ c ∈ form.toList, c.toNat < 128
  escapes : OnlyEscapes form.toList
  bare : ∀ c ∈ form.toList, c ∉ delimiters

/-- Encoding gives such a form when what is kept is ASCII without delimiters and percent signs. -/
theorem encodedForm_encode (safe : ∀ b, keep b = true → b.toNat < 128 ∧ b ≠ 37)
    (bare : ∀ n < 128, keep (UInt8.ofNat n) = true → Char.ofNat n ∉ delimiters) (s : String) :
    EncodedForm s (encode keep s) := by
  have plain : ∀ c ∈ (encode keep s).toList, c.toNat < 128 ∧ c ∉ delimiters := by
    intro c hc
    refine forall_mem_encode (P := fun c => c.toNat < 128 ∧ c ∉ delimiters)
      (fun b kept => (safe b kept).1) ?_ (Text.forall_mem (by decide)) hc
    intro n low kept
    exact ⟨by rwa [toNat_ofNat low], bare n low kept⟩
  have bytes := decodeBytes_encode (s := s) (fun b _ => safe b) []
  rw [List.append_nil] at bytes
  exact
    { bytes := bytes.trans (List.append_nil _)
      decoded := decode_encode fun b _ => safe b
      ascii := fun c hc => (plain c hc).1
      escapes := by
        rw [encode, String.toList_ofList]
        exact onlyEscapes_encodeBytes safe _
      bare := fun c hc => (plain c hc).2 }

end Percent

namespace Request

open Percent

theorem encodedForm_encodeSegment (s : String) : EncodedForm s (encodeSegment s) :=
  encodedForm_encode isSegmentByte_ascii (by decide +kernel) s

theorem encodedForm_encodeQuery (s : String) : EncodedForm s (encodeQuery s) := by
  have segment : ∀ b, isUnreserved b = true → isSegmentByte b = true := by
    intro b h
    rw [isSegmentByte, h, Bool.true_or]
  exact encodedForm_encode (fun b h => isSegmentByte_ascii b (segment b h)) (by decide +kernel) s

/-! ### Reading a query -/

/-- A part of a query as the pair of what stands before and after its first equals sign, decoded. -/
def readPair (part : List Char) : Option (String × String) :=
  (Text.splitOnce? '=' part).map fun (name, value) =>
    (Percent.decode (String.ofList name), Percent.decode (String.ofList value))

/-- The parts of a query, which stand between its ampersands; none stands for a part that is no
pair. -/
def readQuery (text : String) : List (Option (String × String)) :=
  (Text.pieces (· == '&') text.toList).map readPair

/-- The text of a pair in a query. -/
def pairText (p : String × String) : String := encodeQuery p.1 ++ "=" ++ encodeQuery p.2

theorem readPair_pairText (p : String × String) : readPair (pairText p).toList = some p := by
  have name := encodedForm_encodeQuery p.1
  have value := encodedForm_encodeQuery p.2
  have noSign : '=' ∉ (encodeQuery p.1).toList := fun h => name.bare _ h (by decide)
  have text :
      (pairText p).toList = (encodeQuery p.1).toList ++ '=' :: (encodeQuery p.2).toList := by
    simp [pairText]
  rw [readPair, text, Text.splitOnce?_append noSign, Text.splitOnce?_cons_self]
  simp [name.decoded, value.decoded]

theorem not_ampersand_of_mem_pairText {p : String × String} {c : Char}
    (h : c ∈ (pairText p).toList) : (c == '&') = false := by
  have encoded : ∀ s, c ∈ (encodeQuery s).toList → (c == '&') = false := by
    intro s hc
    rw [beq_eq_false_iff_ne]
    rintro rfl
    exact (encodedForm_encodeQuery s).bare _ hc (by decide)
  rw [pairText, String.toList_append, String.toList_append, List.append_assoc] at h
  rcases List.mem_append.mp h with h | h
  · exact encoded _ h
  · rcases List.mem_cons.mp h with rfl | h
    · rfl
    · exact encoded _ h

theorem queryText_of_ne_nil {r : Request} (h : r.queryPairs ≠ []) :
    r.queryText = some ("&".intercalate (r.queryPairs.map pairText)) := by
  unfold queryText
  cases pairs : r.queryPairs with
  | nil => exact absurd pairs h
  | cons => rfl

/-- Pairs are read back from the text of a query, in order. -/
theorem readQuery_intercalate {ps : List (String × String)} (h : ps ≠ []) :
    readQuery ("&".intercalate (ps.map pairText)) = ps.map some := by
  have parts : ("&".intercalate (ps.map pairText)).toList =
      ['&'].intercalate (ps.map fun p => (pairText p).toList) := by
    rw [String.toList_intercalate, List.map_map]
    rfl
  have cut : Text.pieces (· == '&') ("&".intercalate (ps.map pairText)).toList =
      ps.map fun p => (pairText p).toList := by
    rw [parts]
    refine Text.pieces_intercalate rfl (fun none => h (List.map_eq_nil_iff.mp none)) ?_
    intro part mem c hc
    obtain ⟨p, -, rfl⟩ := List.mem_map.mp mem
    exact not_ampersand_of_mem_pairText hc
  rw [readQuery, cut, List.map_map]
  refine List.map_congr_left fun p _ => ?_
  rw [Function.comp_apply, readPair_pairText]

/-- Encoding loses nothing: a query with at least one pair is read as its pairs, in order, and every
text has encoded forms for a path segment and for a query that stand between delimiters and are
decoded to it. -/
theorem encoding_lossless :
    (∀ r : Request, r.queryPairs ≠ [] →
      ∃ text, r.queryText = some text ∧ readQuery text = r.queryPairs.map some) ∧
    ∀ s, EncodedForm s (encodeSegment s) ∧ EncodedForm s (encodeQuery s) := by
  refine ⟨fun r filled => ?_, fun s => ?_⟩
  · exact ⟨_, queryText_of_ne_nil filled, readQuery_intercalate filled⟩
  · exact ⟨encodedForm_encodeSegment s, encodedForm_encodeQuery s⟩

/-- A query whose names and values hold delimiters, with a list, nulls and an escape. -/
def searched : Request :=
  ⟨"GET", "/search", .empty, ⟨[("q&r", .arr [.str "a=b&c", .null, .str ""]), ("none", .null),
    ("", .str "é%41")]⟩, .empty, .empty, none⟩

theorem queryPairs_searched :
    searched.queryPairs = [("q&r", "a=b&c"), ("q&r", ""), ("", "é%41")] := rfl

/-- The statement for a query full of delimiters. -/
theorem encoding_lossless_searched : searched.queryPairs ≠ [] ∧
    ∃ text, searched.queryText = some text ∧
      readQuery text = [some ("q&r", "a=b&c"), some ("q&r", ""), some ("", "é%41")] := by
  have filled : searched.queryPairs ≠ [] := by
    rw [queryPairs_searched]
    exact List.cons_ne_nil _ _
  obtain ⟨text, found, read⟩ := encoding_lossless.1 searched filled
  rw [queryPairs_searched] at read
  exact ⟨filled, text, found, read⟩

end Request

end ToolGateway
