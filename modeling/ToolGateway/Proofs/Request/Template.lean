import ToolGateway.Proofs.Except
import ToolGateway.Proofs.Url.Settled
import ToolGateway.Request.Basic

/-!
# Path templates

A path template is a list of symbols: characters, and placeholders for values. Its segments are what
stands between its slashes. Filled in for a request, each segment has one text, in which every value
is encoded (`filled`), and this text percent-decodes to the segment with the values as they are
(`decode_filled`).
-/

namespace ToolGateway.Request

/-- A character of a template outside braces, or a placeholder. -/
inductive Symbol where
  | char (c : Char)
  | value (name : String)
deriving DecidableEq, Repr, Inhabited

def Piece.symbols : Piece → List Symbol
  | .literal cs => cs.map .char
  | .placeholder name => [.value name]
  | .broken => []

def symbols (template : String) : List Symbol := (pieces template).flatMap Piece.symbols

/-- The segments of a template. A slash at its start stands before the first of them. -/
def segments (template : String) : List (List Symbol) :=
  (if Text.startsWith template "/" then (symbols template).tail else symbols template).splitOn
    (.char '/')

/-- The text of the value of a path parameter, with nothing encoded. -/
def pathText (r : Request) (name : String) : String :=
  ((r.pathValues.get? name).map commaText).getD ""

namespace Symbol

/-- The text that a symbol stands for. -/
def meaning (r : Request) : Symbol → String
  | .char c => String.singleton c
  | .value name => r.pathText name

/-- The text of a symbol in a rendered path. -/
def rendered (r : Request) : Symbol → String
  | .char c => String.singleton c
  | .value name => encodeSegment (r.pathText name)

/-- The text of a symbol in a URL. -/
def printed (r : Request) : Symbol → String
  | .char c => Url.encodePart Url.pathExtra [c]
  | .value name => encodeSegment (r.pathText name)

end Symbol

/-- The texts of the segments of the template in a URL, filled in for a request. -/
def filled (r : Request) : List String :=
  (segments r.path).map fun segment => String.join (segment.map (Symbol.printed r))

/-- The segments of the template with the values in them as they are. -/
def meant (r : Request) : List String :=
  (segments r.path).map fun segment => String.join (segment.map (Symbol.meaning r))

variable {r : Request} {path : String}

/-! ### The rendered path -/

theorem pieceText_symbols {p : Piece} {text : String} (h : r.pieceText p = .ok text) :
    text.toList = p.symbols.flatMap fun s => (s.rendered r).toList := by
  cases p with
  | literal cs =>
    cases h
    simp [Piece.symbols, List.flatMap_map, Symbol.rendered]
  | placeholder name =>
    simp only [pieceText] at h
    split at h
    · cases h
    · cases h
    · next v _ found =>
      cases h
      simp [Piece.symbols, Symbol.rendered, pathText, found]
  | broken => cases h

/-- The rendered path is the template with an encoded value in each placeholder. -/
theorem toList_renderPath (h : r.renderPath = .ok path) :
    path.toList = (symbols r.path).flatMap fun s => (s.rendered r).toList := by
  unfold renderPath at h
  unfold symbols
  generalize pieces r.path = ps at h
  cases texts : ps.mapM (pieceText r) with
  | error e =>
    rw [texts] at h
    cases h
  | ok ts =>
    rw [texts] at h
    cases h
    rw [String.toList_join]
    have each := Except.forall₂_of_mapM texts
    clear texts
    induction each with
    | nil => rfl
    | cons head _ ih => simp only [List.flatMap_cons, List.flatMap_append, pieceText_symbols head, ih]

/-! ### The segments -/

theorem flatMap_symbols_piecesFrom (cs rest : List Char) :
    (piecesFrom false cs rest).flatMap Piece.symbols =
      cs.reverse.map .char ++ (piecesFrom false [] rest).flatMap Piece.symbols := by
  induction rest generalizing cs with
  | nil => simp [piecesFrom, Piece.symbols]
  | cons c rest ih =>
    unfold piecesFrom
    rw [if_neg Bool.false_ne_true, if_neg Bool.false_ne_true]
    split
    · simp [Piece.symbols]
    · rw [ih (c :: cs), ih [c]]
      simp

/-- A slash at the start of a template is a symbol. -/
theorem symbols_of_startsWith {template : String} (h : Text.startsWith template "/" = true) :
    symbols template = .char '/' :: (symbols template).tail := by
  obtain ⟨rest, text⟩ := List.isPrefixOf_iff_prefix.mp h
  have slash : template.toList = '/' :: rest := text.symm
  have first : symbols template =
      .char '/' :: (piecesFrom false [] rest).flatMap Piece.symbols := by
    rw [symbols, pieces, slash, piecesFrom, if_neg Bool.false_ne_true, if_neg (by decide),
      flatMap_symbols_piecesFrom]
    rfl
  rw [first, List.tail_cons]

theorem exists_mem_splitOn {α : Type} [DecidableEq α] {a b : α} {as : List α} :
    (∃ part ∈ as.splitOn a, b ∈ part) ↔ b ∈ as ∧ b ≠ a := by
  induction as with
  | nil => simp
  | cons c as ih =>
    rw [List.splitOn_cons_eq_if_modifyHead]
    split
    · next same =>
      rw [beq_iff_eq] at same
      rw [same]
      simp only [List.mem_cons, exists_eq_or_imp, List.not_mem_nil, false_or, ih]
      constructor
      · rintro ⟨mem, other⟩
        exact ⟨Or.inr mem, other⟩
      · rintro ⟨rfl | mem, other⟩
        · exact absurd rfl other
        · exact ⟨mem, other⟩
    · next other =>
      obtain ⟨first, rest, parts⟩ := List.exists_cons_of_ne_nil (List.splitOn_ne_nil a as)
      have here : b = c → b ≠ a := fun same h => other (by rw [← same, h, beq_self_eq_true])
      rw [parts] at ih
      rw [parts, List.modifyHead_cons]
      simp only [List.mem_cons, exists_eq_or_imp] at ih ⊢
      rw [or_assoc, ih, or_and_right, and_iff_left_of_imp here]

theorem flatMap_intercalate {α β : Type} (f : α → List β) (sep : α) (parts : List (List α)) :
    ([sep].intercalate parts).flatMap f = (f sep).intercalate (parts.map (List.flatMap f)) := by
  induction parts with
  | nil => rfl
  | cons part parts ih =>
    cases parts with
    | nil => simp
    | cons next parts =>
      rw [List.intercalate_cons_cons, List.flatMap_append, List.flatMap_append, ih]
      simp [List.intercalate_cons_cons]

/-- The text of a segment in a rendered path. -/
def segmentText (r : Request) (segment : List Symbol) : List Char :=
  segment.flatMap fun s => (s.rendered r).toList

/-- The texts of the segments in a rendered path. -/
def segmentTexts (r : Request) : List (List Char) := (segments r.path).map (segmentText r)

/-- The text of all segments in a rendered path. -/
def segmentsText (r : Request) : List Char := ['/'].intercalate (segmentTexts r)

/-- The rendered path consists of the segments, after a slash if the template starts with one. -/
theorem toList_renderPath_segments (h : r.renderPath = .ok path) :
    path.toList = if Text.startsWith r.path "/" then '/' :: segmentsText r else segmentsText r := by
  have joined (all : List Symbol) :
      ['/'].intercalate ((all.splitOn (.char '/')).map (segmentText r)) = segmentText r all := by
    have cut := flatMap_intercalate (fun s => (Symbol.rendered r s).toList) (.char '/')
      (all.splitOn (.char '/'))
    rw [List.intercalate_splitOn, Symbol.rendered, String.toList_singleton] at cut
    exact cut.symm
  rw [toList_renderPath h, segmentsText, segmentTexts, segments]
  split
  · next start =>
    rw [joined, symbols_of_startsWith start, List.flatMap_cons, Symbol.rendered,
      String.toList_singleton]
    rfl
  · rw [joined]
    rfl

/-- The symbols of the segments are those of the template, without the slashes. -/
theorem exists_mem_segments {template : String} {s : Symbol} :
    (∃ segment ∈ segments template, s ∈ segment) ↔ s ∈ symbols template ∧ s ≠ .char '/' := by
  rw [segments, exists_mem_splitOn, and_congr_left_iff]
  intro other
  split
  · next start =>
    rw [symbols_of_startsWith start, List.tail_cons, List.mem_cons, or_iff_right other]
  · rfl

/-! ### Encoded values -/

theorem isSegmentByte_ascii (b : UInt8) (h : isSegmentByte b = true) : b.toNat < 128 ∧ b ≠ 37 := by
  have all : ∀ n < 256, isSegmentByte (UInt8.ofNat n) = true → n < 128 ∧ n ≠ 37 := by
    decide +kernel
  obtain ⟨low, other⟩ := all b.toNat b.toNat_lt (by rwa [UInt8.ofNat_toNat])
  exact ⟨low, fun same => other (by rw [same]; rfl)⟩

/-- A character of an encoded value is kept by the path of a URL, and separates nothing there. -/
theorem of_mem_encodeSegment {s : String} {c : Char} (h : c ∈ (encodeSegment s).toList) :
    Percent.Keeps (Url.keeps Url.pathExtra) c ∧ Url.isSlash true c = false ∧ 32 < c.toNat :=
  Percent.forall_mem_encode (P := fun c => Percent.Keeps (Url.keeps Url.pathExtra) c ∧
      Url.isSlash true c = false ∧ 32 < c.toNat)
    (fun b kept => (isSegmentByte_ascii b kept).1) (by decide +kernel)
    (Text.forall_mem (by decide)) h

/-- A character of a rendered path is written in the template, or stands in an encoded value. -/
theorem of_mem_renderPath (h : r.renderPath = .ok path) {c : Char} (hc : c ∈ path.toList) :
    .char c ∈ symbols r.path ∨ (Percent.Keeps (Url.keeps Url.pathExtra) c ∧
      Url.isSlash true c = false ∧ 32 < c.toNat) := by
  rw [toList_renderPath h] at hc
  obtain ⟨s, hs, hc⟩ := List.mem_flatMap.mp hc
  cases s with
  | char d =>
    rw [Symbol.rendered, String.toList_singleton, List.mem_singleton] at hc
    exact Or.inl (hc ▸ hs)
  | value name => exact Or.inr (of_mem_encodeSegment hc)

theorem encodePart_encodeSegment (s : String) :
    Url.encodePart Url.pathExtra (encodeSegment s).toList = encodeSegment s :=
  Url.encodePart_of_kept fun _ hc => Url.keeps_iff.mp (of_mem_encodeSegment hc).1

theorem Symbol.encodePart_rendered (r : Request) (s : Symbol) :
    Url.encodePart Url.pathExtra (s.rendered r).toList = s.printed r := by
  cases s with
  | char c => simp [rendered, printed]
  | value name => exact encodePart_encodeSegment _

/-- What a segment of a rendered path becomes in a URL. -/
theorem encodePart_segmentText (r : Request) (segment : List Symbol) :
    Url.encodePart Url.pathExtra (segmentText r segment) =
      String.join (segment.map (Symbol.printed r)) := by
  induction segment with
  | nil => rfl
  | cons s segment ih =>
    rw [List.map_cons, String.join_cons, ← ih, ← s.encodePart_rendered, Url.encodePart_eq,
      Url.encodePart_eq, Url.encodePart_eq, ← Percent.encode_append, ← String.ofList_append]
    rfl

/-! ### Dots -/

theorem plainDots_cons_of_ne {c : Char} (h : c ≠ '%') (rest : List Char) :
    Url.plainDots (c :: rest) = c :: Url.plainDots rest :=
  Url.plainDots_cons fun ⟨same, _⟩ => h same

/-- An escape stays as it is, unless it is that of a dot. -/
theorem plainDots_escape {b : UInt8} (h : b ≠ 46) (rest : List Char) :
    Url.plainDots (Percent.escape b ++ rest) = Percent.escape b ++ Url.plainDots rest := by
  have digits : ∀ n < 256, (Percent.hexUpper (n / 16) = '2' →
      Percent.hexUpper (n % 16) ≠ 'e' ∧ (Percent.hexUpper (n % 16) = 'E' → n = 46)) ∧
      Percent.hexUpper (n / 16) ≠ '%' ∧ Percent.hexUpper (n % 16) ≠ '%' := by
    decide +kernel
  obtain ⟨dot, high, low⟩ := digits b.toNat b.toNat_lt
  have other : ¬ ('%' = '%' ∧ ∃ more,
      Percent.hexUpper (b.toNat / 16) :: Percent.hexUpper (b.toNat % 16) :: rest =
        '2' :: 'e' :: more ∨
      Percent.hexUpper (b.toNat / 16) :: Percent.hexUpper (b.toNat % 16) :: rest =
        '2' :: 'E' :: more) := by
    rintro ⟨-, more, same | same⟩ <;> simp only [List.cons.injEq] at same
    · exact (dot same.1).1 same.2.1
    · exact h (UInt8.toNat_inj.mp ((dot same.1).2 same.2.1))
  show Url.plainDots ('%' :: Percent.hexUpper (b.toNat / 16) :: Percent.hexUpper (b.toNat % 16) ::
    rest) = _
  rw [Url.plainDots_cons other, plainDots_cons_of_ne high, plainDots_cons_of_ne low]
  rfl

theorem plainDots_encodeBytes (bytes : List UInt8) (rest : List Char) :
    Url.plainDots (Percent.encodeBytes isSegmentByte bytes ++ rest) =
      Percent.encodeBytes isSegmentByte bytes ++ Url.plainDots rest := by
  induction bytes with
  | nil => rfl
  | cons b bytes ih =>
    rw [Percent.encodeBytes, List.flatMap_cons, List.append_assoc, List.append_assoc]
    rw [Percent.encodeBytes] at ih
    split
    · next kept =>
      obtain ⟨low, other⟩ := isSegmentByte_ascii b kept
      have plain : Char.ofNat b.toNat ≠ '%' := by
        intro same
        refine other (UInt8.toNat_inj.mp ?_)
        rw [← toNat_ofNat low, same]
        rfl
      rw [List.singleton_append, plainDots_cons_of_ne plain, ih]
      rfl
    · next other =>
      rw [plainDots_escape (fun same => other (by rw [same]; decide)), ih]

/-- The text of a segment has no dots in another form. -/
theorem plainDots_segmentText {segment : List Symbol} (percent : .char '%' ∉ segment) :
    Url.plainDots (segmentText r segment) = segmentText r segment := by
  induction segment with
  | nil => rfl
  | cons s segment ih =>
    obtain ⟨first, rest⟩ := not_or.mp (fun m => percent (List.mem_cons.mpr m))
    have later := ih rest
    rw [segmentText] at later
    rw [segmentText, List.flatMap_cons]
    cases s with
    | char c =>
      rw [Symbol.rendered, String.toList_singleton, List.singleton_append,
        plainDots_cons_of_ne (fun same => first (congrArg _ same.symm)), later]
    | value name =>
      rw [Symbol.rendered, encodeSegment, Percent.encode, String.toList_ofList,
        plainDots_encodeBytes, later]

/-! ### The segments in a URL -/

theorem filled_eq (r : Request) :
    r.filled = (segmentTexts r).map (Url.encodePart Url.pathExtra) := by
  rw [filled, segmentTexts, List.map_map]
  exact List.map_congr_left fun segment _ => (encodePart_segmentText r segment).symm

theorem segmentTexts_ne_nil (r : Request) : segmentTexts r ≠ [] :=
  fun none => List.splitOn_ne_nil _ _ (List.map_eq_nil_iff.mp none)

/-! ### Decoding -/

theorem decodeBytes_printed {s : Symbol} (percent : s ≠ .char '%') (rest : List UInt8) :
    Percent.decodeBytes (Utf8.encode (s.printed r) ++ rest) =
      Utf8.encode (s.meaning r) ++ Percent.decodeBytes rest := by
  cases s with
  | char c =>
    refine Percent.decodeBytes_encode (s := String.singleton c) (fun b hb kept => ?_) rest
    have ascii := Url.ascii_of_keeps b kept
    refine ⟨ascii, fun same => percent ?_⟩
    rw [Utf8.encode, String.toList_singleton, List.flatMap_singleton] at hb
    have value : c.toNat = 37 := by rw [Utf8.toNat_of_mem_encodeChar hb ascii, same]; rfl
    rw [← Char.ofNat_toNat c, value]
  | value name =>
    exact Percent.decodeBytes_encode (fun b _ => isSegmentByte_ascii b) rest

/-- A text of a segment in a URL decodes to the segment with the values as they are. -/
theorem decode_printed {segment : List Symbol} (percent : .char '%' ∉ segment) :
    Percent.decode (String.join (segment.map (Symbol.printed r))) =
      String.join (segment.map (Symbol.meaning r)) := by
  have bytes : Percent.decodeBytes (Utf8.encode (String.join (segment.map (Symbol.printed r)))) =
      Utf8.encode (String.join (segment.map (Symbol.meaning r))) := by
    induction segment with
    | nil => rfl
    | cons s segment ih =>
      obtain ⟨first, rest⟩ := not_or.mp (fun m => percent (List.mem_cons.mpr m))
      rw [List.map_cons, String.join_cons, List.map_cons, String.join_cons, Utf8.encode_append,
        Utf8.encode_append, decodeBytes_printed (Ne.symm first), ih rest]
  rw [Percent.decode, bytes, Utf8.decodeLossy_encode]

/-- The segments of the path decode to those of the template with the values in them. -/
theorem decode_filled (percent : .char '%' ∉ symbols r.path) :
    r.filled.map Percent.decode = r.meant := by
  rw [filled, meant, List.map_map]
  refine List.map_congr_left fun segment mem => decode_printed fun hs => percent ?_
  exact (exists_mem_segments.mp ⟨segment, mem, hs⟩).1

end ToolGateway.Request
