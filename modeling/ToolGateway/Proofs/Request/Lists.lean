import ToolGateway.Proofs.Dict
import ToolGateway.Proofs.Request.Query

/-!
# Lists in a path

A list in a path is one text with commas between its items, and the comma is among the characters
that a path segment keeps. So a segment that is cut at its commas, and decoded part by part, is what
the joined text is when it is cut (`readList_encodeSegment`): it gives the list back exactly when
there is an item and none of them holds a comma, and two lists lead to one path exactly when they
are the same text once they are joined (`path_lists_read_back_iff`).
-/

namespace ToolGateway

/-- Two translations of a text that differ in one symbol at most, and give the same, do not differ
in this symbol if it is there. -/
theorem List.eq_of_flatMap_eq {α β : Type} [DecidableEq α] {f g : α → List β} {a : α} {as : List α}
    (mem : a ∈ as) (others : ∀ b, b ≠ a → f b = g b) (same : as.flatMap f = as.flatMap g) :
    f a = g a := by
  -- What the others give counts the same on both sides, so both texts of the symbol are as long.
  have counted : ∀ bs : List α, (bs.flatMap f).length + bs.count a * (g a).length =
      (bs.flatMap g).length + bs.count a * (f a).length := by
    intro bs
    induction bs with
    | nil => simp
    | cons b bs ih =>
      rw [List.flatMap_cons, List.flatMap_cons, List.length_append, List.length_append]
      by_cases here : b = a
      · rw [here, List.count_cons_self, Nat.succ_mul, Nat.succ_mul]
        omega
      · rw [List.count_cons_of_ne here, others b here]
        omega
  have length : (f a).length = (g a).length := by
    have := counted as
    rw [same, Nat.add_left_cancel_iff] at this
    exact (Nat.eq_of_mul_eq_mul_left (List.count_pos_iff.mpr mem) this).symm
  induction as with
  | nil => cases mem
  | cons b bs ih =>
    rw [List.flatMap_cons, List.flatMap_cons] at same
    by_cases here : b = a
    · rw [here] at same
      exact (List.append_inj same length).1
    · rw [others b here] at same
      exact ih ((List.mem_cons.mp mem).resolve_left (Ne.symm here)) (List.append_cancel_left same)

namespace Request

variable {r : Request} {name : String} {items xs ys : List String}

/-! ### Segments that are lists -/

/-- The items of a segment: what stands between its commas, decoded. -/
def readList (segment : String) : List String :=
  (Text.splitOn ',' segment).map Percent.decode

/-- Encoding a text for a segment leaves its commas where they are. -/
theorem pieces_encodeSegment (s : String) :
    Text.pieces (· == ',') (encodeSegment s).toList =
      (Text.pieces (· == ',') s.toList).map fun cs => (encodeSegment (String.ofList cs)).toList := by
  have stays : ∀ c, (c == ',') = true →
      Percent.encodeBytes isSegmentByte (Utf8.encodeChar c) = [c] := by
    intro c here
    rw [eq_of_beq here]
    apply Percent.Keeps.encodeBytes
    decide
  have plain : ∀ c, (c == ',') = false →
      ∀ d ∈ Percent.encodeBytes isSegmentByte (Utf8.encodeChar c), (d == ',') = false := by
    intro c other d hd
    have ascii : ∀ b, isSegmentByte b = true → b.toNat < 128 :=
      fun b kept => (isSegmentByte_ascii b kept).1
    have single : d ∈ (Percent.encode isSegmentByte (String.singleton c)).toList := by
      rw [Percent.toList_encode, String.toList_singleton, List.flatMap_singleton]
      exact hd
    rcases Percent.of_mem_encode ascii single with ⟨mem, -⟩ | escape
    · rw [String.toList_singleton, List.mem_singleton] at mem
      rw [mem]
      exact other
    · have digit : ∀ e ∈ "%0123456789ABCDEF".toList, (e == ',') = false :=
        Text.forall_mem (by decide)
      exact digit d (Percent.mem_of_inEscape escape)
  rw [encodeSegment, Percent.toList_encode, Text.pieces_flatMap stays plain]
  apply List.map_congr_left
  intro cs _
  rw [encodeSegment, Percent.toList_encode, String.toList_ofList]

/-- The items of an encoded text are what the text is cut into. -/
theorem readList_encodeSegment (s : String) : readList (encodeSegment s) = Text.splitOn ',' s := by
  rw [readList, Text.splitOn, pieces_encodeSegment, List.map_map, List.map_map, Text.splitOn]
  apply List.map_congr_left
  intro cs _
  show Percent.decode (String.ofList (encodeSegment (String.ofList cs)).toList) = String.ofList cs
  rw [String.ofList_toList]
  exact (encodedForm_encodeSegment _).decoded

theorem splitOn_intercalate_iff :
    Text.splitOn ',' (",".intercalate items) = items ↔
      items ≠ [] ∧ ∀ s ∈ items, ',' ∉ s.toList := by
  have joined : (",".intercalate items).toList = [','].intercalate (items.map String.toList) :=
    String.toList_intercalate
  have back : (items.map String.toList).map String.ofList = items := by
    simp [List.map_map, Function.comp_def]
  have lists : Text.splitOn ',' (",".intercalate items) = items ↔
      Text.pieces (· == ',') ([','].intercalate (items.map String.toList)) =
        items.map String.toList := by
    rw [Text.splitOn, joined]
    constructor
    · intro same
      apply (List.map_inj_right fun _ _ => String.ofList_inj.mp).mp
      rw [same, back]
    · intro same
      rw [same, back]
  rw [lists, Text.pieces_intercalate_iff rfl, List.forall_mem_map]
  refine and_congr (not_congr List.map_eq_nil_iff) (forall₂_congr fun s _ => ?_)
  constructor
  · intro plain comma
    exact absurd (plain ',' comma) (by decide)
  · intro none c hc
    apply beq_false_of_ne
    rintro rfl
    exact none hc

/-! ### Paths with a list -/

/-- A request with a list of texts as a path parameter. -/
def withList (r : Request) (name : String) (items : List String) : Request :=
  { r with pathValues := r.pathValues.insert name (.arr (items.map .str)) }

/-- The text of a list of texts. -/
theorem commaText_strings (items : List String) :
    commaText (.arr (items.map .str)) = ",".intercalate items := by
  have all : present (.arr (items.map .str)) = items.map .str := by
    show (items.map Json.str).filter (!·.isNull) = items.map .str
    apply List.filter_eq_self.mpr
    intro v hv
    obtain ⟨s, -, rfl⟩ := List.mem_map.mp hv
    rfl
  have texts : (items.map Json.str).map valueText = items := by
    rw [List.map_map]
    exact List.map_id items
  rw [commaText, all, texts]

theorem get?_withList (r : Request) (name : String) (items : List String) (other : String) :
    (r.withList name items).pathValues.get? other =
      if name = other then some (.arr (items.map .str)) else r.pathValues.get? other :=
  Dict.get?_insert

theorem pathText_withList (r : Request) (name : String) (items : List String) :
    (r.withList name items).pathText name = ",".intercalate items := by
  rw [pathText, get?_withList, if_pos rfl, Option.map_some, Option.getD_some, commaText_strings]

theorem pathText_withList_of_ne (r : Request) {name other : String} (h : other ≠ name)
    (items : List String) : (r.withList name items).pathText other = r.pathText other := by
  rw [pathText, get?_withList, if_neg (Ne.symm h), pathText]

/-- Each placeholder of the list becomes its encoded text. -/
theorem pieceText_withList (r : Request) (name : String) (items : List String) :
    (r.withList name items).pieceText (.placeholder name) =
      .ok (encodeSegment (",".intercalate items)) := by
  simp only [pieceText, get?_withList, if_true, commaText_strings]

/-- The other pieces of a path do not depend on the list. -/
theorem pieceText_withList_of_ne {p : Piece} (h : p ≠ .placeholder name) (xs ys : List String) :
    (r.withList name xs).pieceText p = (r.withList name ys).pieceText p := by
  cases p with
  | literal cs => rfl
  | placeholder other =>
    have ne : name ≠ other := fun same => h (congrArg Piece.placeholder same.symm)
    simp only [pieceText, get?_withList, if_neg ne]
  | broken => rfl

/-- A path tells the joined text of a list in it, and nothing else of the list. -/
theorem renderPath_withList_iff (mem : .placeholder name ∈ pieces r.path) {path : String}
    (rendered : (r.withList name xs).renderPath = .ok path) (ys : List String) :
    (r.withList name ys).renderPath = .ok path ↔ ",".intercalate ys = ",".intercalate xs := by
  constructor
  · intro again
    have same : (symbols r.path).flatMap (fun s => (s.rendered (r.withList name ys)).toList) =
        (symbols r.path).flatMap fun s => (s.rendered (r.withList name xs)).toList :=
      (toList_renderPath again).symm.trans (toList_renderPath rendered)
    have there : Symbol.value name ∈ symbols r.path :=
      List.mem_flatMap.mpr ⟨_, mem, List.mem_singleton_self _⟩
    have others : ∀ s : Symbol, s ≠ .value name →
        (s.rendered (r.withList name ys)).toList = (s.rendered (r.withList name xs)).toList := by
      intro s other
      cases s with
      | char c => rfl
      | value key =>
        have ne : key ≠ name := fun same => other (congrArg Symbol.value same)
        simp only [Symbol.rendered, pathText_withList_of_ne r ne]
    have texts := List.eq_of_flatMap_eq there others same
    simp only [Symbol.rendered, pathText_withList, String.toList_inj] at texts
    have decoded (s : String) : Percent.decode (encodeSegment s) = s :=
      (encodedForm_encodeSegment s).decoded
    rw [← decoded (",".intercalate ys), texts, decoded]
  · intro same
    have pieces_eq : (r.withList name ys).pieceText = (r.withList name xs).pieceText := by
      funext p
      by_cases here : p = .placeholder name
      · rw [here, pieceText_withList, pieceText_withList, same]
      · exact pieceText_withList_of_ne here ys xs
    rw [← rendered, renderPath, renderPath, pieces_eq]
    rfl

/-- Without commas in them, lists of texts that are not empty are told apart by their joined text. -/
theorem eq_of_intercalate_eq (plain : ∀ s ∈ xs ++ ys, s ≠ "" ∧ ',' ∉ s.toList)
    (same : ",".intercalate xs = ",".intercalate ys) : xs = ys := by
  have texts := congrArg String.toList same
  rw [String.toList_intercalate, String.toList_intercalate] at texts
  have parts := Text.eq_of_intercalate_eq (p := (· == ',')) (by decide) (fun part mem => ?_) texts
  · exact List.map_injective_iff.mpr (fun s t => String.toList_inj.mp) parts
  · rw [← List.map_append, List.mem_map] at mem
    obtain ⟨s, hs, rfl⟩ := mem
    obtain ⟨filled, apart⟩ := plain s hs
    refine ⟨fun none => filled (String.toList_inj.mp none), fun c hc => ?_⟩
    rw [beq_eq_false_iff_ne]
    rintro rfl
    exact apart hc

/-- A list of texts in a path is read back from its segment exactly when it is not empty and no item
holds a comma. Two lists lead to the same path exactly when they are the same text once they are
joined; so lists of texts that are not empty and hold no comma lead to different paths. -/
theorem path_lists_read_back_iff (r : Request) (name : String) (items : List String) :
    (∃ segment, (r.withList name items).pieceText (.placeholder name) = .ok segment ∧
      (readList segment = items ↔ items ≠ [] ∧ ∀ s ∈ items, ',' ∉ s.toList)) ∧
    ∀ path, .placeholder name ∈ pieces r.path → (r.withList name items).renderPath = .ok path →
      ∀ others, ((r.withList name others).renderPath = .ok path ↔
          ",".intercalate others = ",".intercalate items) ∧
        ((∀ s ∈ others ++ items, s ≠ "" ∧ ',' ∉ s.toList) →
          ((r.withList name others).renderPath = .ok path ↔ others = items)) := by
  refine ⟨⟨_, pieceText_withList r name items, ?_⟩, fun path mem rendered others => ?_⟩
  · rw [readList_encodeSegment]
    exact splitOn_intercalate_iff
  · have joined := renderPath_withList_iff mem rendered others
    refine ⟨joined, fun plain => joined.trans ⟨eq_of_intercalate_eq plain, ?_⟩⟩
    rintro rfl
    rfl

/-- A request for some items of a shop. -/
def picking : Request :=
  ⟨"GET", "/shops/\x7bshop\x7d/items/\x7bids\x7d", ⟨[("shop", .str "7")]⟩, .empty, .empty, .empty,
    none⟩

/-- The statement for items that hold a slash and an escape, in two orders. -/
theorem path_lists_read_back_iff_picking :
    (readList "a%2Fb,%252C" = ["a/b", "%2C"]) ∧
    .placeholder "ids" ∈ pieces picking.path ∧
    (picking.withList "ids" ["a/b", "%2C"]).renderPath = .ok "/shops/7/items/a%2Fb,%252C" ∧
    (picking.withList "ids" ["%2C", "a/b"]).renderPath ≠ .ok "/shops/7/items/a%2Fb,%252C" := by
  have mem : .placeholder "ids" ∈ pieces picking.path := by decide +kernel
  have rendered : (picking.withList "ids" ["a/b", "%2C"]).renderPath =
      .ok "/shops/7/items/a%2Fb,%252C" := by
    decide +kernel
  obtain ⟨⟨segment, text, read⟩, apart⟩ := path_lists_read_back_iff picking "ids" ["a/b", "%2C"]
  have segment_eq : segment = "a%2Fb,%252C" := by
    have known : (picking.withList "ids" ["a/b", "%2C"]).pieceText (.placeholder "ids") =
        .ok "a%2Fb,%252C" := by
      decide +kernel
    exact Except.ok.inj (text.symm.trans known)
  refine ⟨?_, mem, rendered, fun same => ?_⟩
  · rw [← segment_eq]
    exact read.mpr (by decide)
  · have equal := ((apart _ mem rendered ["%2C", "a/b"]).2 (by decide)).mp same
    exact absurd equal (by decide)

/-- An item with a comma is read as two, and the list leads to the path of another one. -/
theorem lists_share_path : ∃ r : Request, ∃ path,
    (r.withList "ids" ["a,b"]).renderPath = .ok path ∧
      (r.withList "ids" ["a", "b"]).renderPath = .ok path ∧
      (r.withList "ids" ["a,b"]).pieceText (.placeholder "ids") = .ok "a,b" ∧
      readList "a,b" = ["a", "b"] := by
  exact ⟨picking, "/shops/7/items/a,b", by decide +kernel, by decide +kernel, by decide +kernel,
    by decide +kernel⟩

end Request

end ToolGateway
