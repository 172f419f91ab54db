import ToolGateway.Proofs.BaseUrl
import ToolGateway.Proofs.Request.Template
import ToolGateway.Proofs.Url.Length
import ToolGateway.Request.Target

/-!
# The layout of a target

The text of a target is read like any other URL, so blanks, backslashes and dots in it have a meaning
that they do not have in the template. Under a base without query and fragment, the rendered path is
read on top of the segments of the base (`target_of_bare`). What arrives are the segments of the
template with the encoded values in them, exactly when the request and the base have nothing of the
kind (`target_layout`).
-/

namespace ToolGateway.Request

open Url

variable {r : Request} {base u : Url} {host : Host} {path : String}

/-! ### The text of the target -/

/-- The query with its sign. -/
def queryTail (r : Request) : List Char := r.queryText.elim [] fun q => '?' :: q.toList

/-- A path without the slash it may start with. -/
def afterSlash (path : String) : List Char :=
  if Text.startsWith path "/" then path.toList.tail else path.toList

/-- The text of the target is the printed base without slashes at its end, a slash, the rest of the
path, and the query. -/
theorem toList_targetText (base : Url) (rendered : r.renderPath = .ok path) : ∃ text,
    r.targetText base = .ok text ∧
    text.toList = base.render.toList.rdropWhile (· == '/') ++
      '/' :: (afterSlash path ++ r.queryTail) := by
  have slash : (if Text.startsWith path "/" then path else "/" ++ path).toList =
      '/' :: afterSlash path := by
    unfold afterSlash
    split
    · next start =>
      obtain ⟨rest, text⟩ := List.isPrefixOf_iff_prefix.mp start
      rw [← text]
      rfl
    · rw [String.toList_append]
      rfl
  unfold targetText
  rw [rendered]
  refine ⟨_, rfl, ?_⟩
  rw [String.toList_append, String.toList_append, toList_trimEnd, slash, queryTail]
  cases r.queryText <;> simp

theorem target_eq_ok_iff {text : String} (written : r.targetText base = .ok text) :
    r.target base = .ok u ↔ Url.parse text = .ok u := by
  unfold target
  rw [written]
  dsimp only
  cases Url.parse text with
  | error e => constructor <;> rintro ⟨⟩
  | ok v => constructor <;> rintro ⟨⟩ <;> rfl

/-! ### The query -/

/-- A character of a query that is written for a request is kept by the query of a URL. -/
theorem of_mem_queryText {q : String} (h : r.queryText = some q) {c : Char} (hc : c ∈ q.toList) :
    Percent.Keeps (keeps (queryExtra true)) c ∧ 32 < c.toNat ∧ c ≠ '/' := by
  let P (c : Char) : Prop := Percent.Keeps (keeps (queryExtra true)) c ∧ 32 < c.toNat ∧ c ≠ '/'
  have sign : ∀ c ∈ ['&', '='], P c := Text.forall_mem (by decide)
  have encoded {s : String} (hc : c ∈ (encodeQuery s).toList) : P c := by
    have all : ∀ n < 256, isUnreserved (UInt8.ofNat n) = true → n < 128 := by decide +kernel
    have ascii (b : UInt8) (unreserved : isUnreserved b = true) : b.toNat < 128 :=
      all b.toNat b.toNat_lt (by rwa [UInt8.ofNat_toNat])
    exact Percent.forall_mem_encode (P := P) ascii (by decide +kernel)
      (Text.forall_mem (by decide)) hc
  unfold queryText at h
  split at h
  · cases h
  · cases h
    rw [String.toList_intercalate, List.map_map] at hc
    rcases Text.of_mem_intercalate hc with rfl | ⟨part, mem, hc⟩
    · exact sign '&' (by simp)
    · obtain ⟨⟨k, v⟩, -, rfl⟩ := List.mem_map.mp mem
      simp only [Function.comp, String.toList_append, List.mem_append] at hc
      rcases hc with (hc | hc) | hc
      · exact encoded hc
      · exact sign c (List.mem_cons_of_mem _ hc)
      · exact encoded hc

/-! ### What is read -/

/-- What counts of a path when it is read, in front of the query. -/
def arriving (r : Request) (path : String) : List Char :=
  if r.queryText.isSome then (afterSlash path).filter counts else tidied (afterSlash path)

theorem afterSlash_sublist (path : String) : (afterSlash path).Sublist path.toList := by
  unfold afterSlash
  split
  · exact List.tail_sublist _
  · exact List.Sublist.refl _

theorem arriving_sublist (r : Request) (path : String) :
    (r.arriving path).Sublist (afterSlash path) := by
  unfold arriving
  split
  · exact List.filter_sublist
  · exact tidied_sublist _

theorem splitTail_arriving {before : List Char} (visible : ∀ c ∈ before, 32 < c.toNat)
    (noTail : '?' ∉ before ∧ '#' ∉ before) (plain : '?' ∉ path.toList ∧ '#' ∉ path.toList) :
    splitTail (tidied (before ++ (afterSlash path ++ r.queryTail))) =
      (before ++ r.arriving path, r.queryText.map String.toList, none) := by
  have sub := (arriving_sublist r path).trans (afterSlash_sublist path)
  have question : '?' ∉ r.arriving path := fun mem => plain.1 (sub.subset mem)
  have sign : '#' ∉ r.arriving path := fun mem => plain.2 (sub.subset mem)
  rw [tidied_append visible, splitTail_append noTail.1 noTail.2]
  unfold queryTail
  cases query : r.queryText with
  | none =>
    have arrives : tidied (afterSlash path) = r.arriving path := by
      rw [arriving, query]
      rfl
    have tail := splitTail_append question sign []
    rw [List.append_nil] at tail
    have nothing : splitTail [] = ([], none, none) := rfl
    rw [Option.elim_none, List.append_nil, arrives, tail, nothing]
    simp
  | some q =>
    have arrives : (afterSlash path).filter counts = r.arriving path := by
      rw [arriving, query]
      rfl
    have shown : ∀ c ∈ q.toList, 32 < c.toNat := fun c hc => (of_mem_queryText query hc).2.1
    have noSign : '#' ∉ q.toList := fun mem => absurd (of_mem_queryText query mem).1 (by decide)
    rw [Option.elim_some, tidied_append_cons (by decide), arrives, tidied_of_visible shown,
      splitTail_append question sign, splitTail_question noSign]
    simp

/-- The segments of the base without empty ones at the end, in front of those of the target. -/
def baseSegments (base : Url) : List String := base.path.list.rdropWhile String.isEmpty

theorem settled_baseSegments (settled : base.Settled) :
    ∀ s ∈ baseSegments base, SettledSegment s := fun s hs =>
  settled.path.list s ((List.rdropWhile_prefix _ _).subset hs)

/-- Under a base without query and fragment, the path is read on top of the segments of the base. -/
theorem target_of_bare (settled : base.Settled) (query : base.query = none)
    (fragment : base.fragment = none) (rendered : r.renderPath = .ok path)
    (plain : '?' ∉ path.toList ∧ '#' ∉ path.toList) :
    r.target base = .ok { base with
      path := .segments (appendSegments false (baseSegments base)
        (Text.pieces (isSlash true) (r.arriving path)))
      query := r.queryText
      fragment := none } := by
  obtain ⟨host, hosted, sound⟩ := settled.host
  have segments := settled_baseSegments settled
  obtain ⟨text, written, chars⟩ := toList_targetText base rendered
  have start : text.toList = startText base host ++
      '/' :: (leading (baseSegments base) ++ (afterSlash path ++ r.queryTail)) := by
    have whole : ∀ s ∈ base.path.list, '/' ∉ s.toList := fun s hs mem =>
      absurd ((settled.path.list s hs).whole '/' mem) (by decide)
    rw [chars, toList_render settled hosted, query, fragment, Option.elim_none, Option.elim_none,
      List.append_nil, List.append_nil,
      rdropWhile_slashed (getLast?_startText settled sound) whole, List.append_assoc,
      slashed_append_slash]
    rfl
  have visible : ∀ c ∈ leading (baseSegments base), 32 < c.toNat ∧ c ≠ '?' ∧ c ≠ '#' :=
    fun c hc => of_mem_leading segments hc
  have query' : ∀ q, r.queryText = some q → encodePart (queryExtra true) q.toList = q := fun q h =>
    encodePart_of_kept fun c hc => keeps_iff.mp (of_mem_queryText h hc).1
  rw [target_eq_ok_iff written, parse_printed settled hosted sound start,
    splitTail_arriving (fun c hc => (visible c hc).1)
      ⟨fun mem => (visible _ mem).2.1 rfl, fun mem => (visible _ mem).2.2 rfl⟩ plain]
  unfold readPath withTail
  dsimp only
  rw [settled.web.ne_file, settled.web.isSpecial, pieces_leading segments,
    appendSegments_settled segments [] (Text.pieces_ne_nil _ _), List.nil_append]
  cases query : r.queryText with
  | none => rfl
  | some q => simp [query' q query]

/-! ### A base with a query or a fragment -/

theorem fragment_of_mem_sign {cs : List Char} (h : '#' ∈ cs) : (splitTail cs).2.2 ≠ none := by
  have cut : Text.splitOnce? '#' cs ≠ none := fun none => Text.splitOnce?_eq_none_iff.mp none h
  obtain ⟨parts, found⟩ := Option.ne_none_iff_exists'.mp cut
  unfold splitTail
  rw [found]
  dsimp only
  split <;> exact Option.some_ne_none _

theorem mem_encodePart {extra : String} {cs : List Char} {c : Char} (h : c ∈ cs)
    (kept : Percent.Keeps (keeps extra) c) : c ∈ (encodePart extra cs).toList := by
  rw [encodePart_eq, Percent.toList_encode, String.toList_ofList, List.mem_flatMap]
  exact ⟨c, h, by rw [kept.encodeBytes]; exact List.mem_cons_self⟩

/-- Query and fragment of a target whose base has more than a path. -/
theorem tail_of_target (settled : base.Settled) (hosted : base.host = some host)
    (sound : host.Settled) (rendered : r.renderPath = .ok path) (target : r.target base = .ok u)
    {sign : Char} (visible : 32 < sign.toNat) (other : sign ≠ '/') (cs after : List Char)
    (printed : base.render.toList = startText base host ++ '/' :: (cs ++ sign :: after)) :
    ∃ more, '/' ∈ more ∧
      u.query = (splitTail (cs.filter counts ++ sign :: more)).2.1.map
        (encodePart (queryExtra true)) ∧
      u.fragment = (splitTail (cs.filter counts ++ sign :: more)).2.2.map
        (encodePart fragmentExtra) := by
  obtain ⟨text, written, chars⟩ := toList_targetText base rendered
  generalize afterSlash path ++ r.queryTail = rest at chars
  have trimmed : (startText base host ++ '/' :: (cs ++ sign :: after)).rdropWhile (· == '/') =
      startText base host ++ '/' :: cs ++ sign :: after.rdropWhile (· == '/') := by
    rw [← List.cons_append, ← List.append_assoc]
    exact Text.reverse_dropWhile_append (by simpa using other) after
  have start : text.toList = startText base host ++
      '/' :: (cs ++ sign :: (after.rdropWhile (· == '/') ++ '/' :: rest)) := by
    rw [chars, printed, trimmed]
    simp
  rw [target_eq_ok_iff written, parse_printed settled hosted sound start,
    tidied_append_cons visible, tidied_append_cons (by decide)] at target
  cases target
  refine ⟨_, List.mem_append_right _ List.mem_cons_self, ?_, rfl⟩
  rw [withTail, settled.web.isSpecial]

/-- A target that ends like its request has a base without query and fragment: what a base has after
its path takes the path of the request in. -/
theorem bare_of_target (settled : base.Settled) (rendered : r.renderPath = .ok path)
    (target : r.target base = .ok u) (query : u.query = r.queryText) (fragment : u.fragment = none) :
    base.query = none ∧ base.fragment = none := by
  obtain ⟨host, hosted, sound⟩ := settled.host
  obtain ⟨list, path, ne, each⟩ := settled.path
  obtain ⟨s, more, rfl⟩ := List.exists_cons_of_ne_nil ne
  have printed := toList_render settled hosted
  have segments : slashed (s :: more) = '/' :: (s.toList ++ slashed more) := rfl
  rw [path, Path.list, segments] at printed
  cases ending : base.fragment with
  | some f =>
    exfalso
    rw [ending, Option.elim_some] at printed
    have sign : 32 < '#'.toNat ∧ '#' ≠ '/' := by decide
    obtain ⟨more, -, -, found⟩ := tail_of_target settled hosted sound rendered target sign.1 sign.2
      (s.toList ++ slashed more ++ (base.query.elim [] fun q => '?' :: q.toList)) f.toList
      (printed.trans (by simp))
    rw [fragment] at found
    exact fragment_of_mem_sign (by simp) (Option.map_eq_none_iff.mp found.symm)
  | none =>
    refine ⟨?_, rfl⟩
    cases between : base.query with
    | none => rfl
    | some q =>
      exfalso
      rw [ending, between, Option.elim_some, Option.elim_none, List.append_nil] at printed
      have question : 32 < '?'.toNat ∧ '?' ≠ '/' := by decide
      obtain ⟨more', slash, found, none⟩ := tail_of_target settled hosted sound rendered target
        question.1 question.2 (s.toList ++ slashed more) q.toList (printed.trans (by simp))
      have inPath : ∀ c ∈ s.toList ++ slashed more, 32 < c.toNat ∧ c ≠ '?' ∧ c ≠ '#' := by
        intro c hc
        exact of_mem_slashed each (by rw [segments]; exact List.mem_cons_of_mem _ hc)
      rw [filter_counts_of_visible fun c hc => (inPath c hc).1] at found none
      have sign : '#' ∉ more' := by
        intro mem
        rw [fragment] at none
        exact fragment_of_mem_sign (by simp [mem]) (Option.map_eq_none_iff.mp none.symm)
      rw [splitTail_append (fun mem => (inPath _ mem).2.1 rfl) (fun mem => (inPath _ mem).2.2 rfl),
        splitTail_question sign, Option.map_some, query] at found
      exact (of_mem_queryText found (mem_encodePart slash (by decide))).2.2 rfl

/-! ### What arrives -/

theorem startsWith_slash_iff {s : String} :
    Text.startsWith s "/" = true ↔ ∃ rest, s.toList = '/' :: rest := by
  rw [Text.startsWith, List.isPrefixOf_iff_prefix]
  constructor
  · rintro ⟨rest, text⟩
    exact ⟨rest, text.symm⟩
  · rintro ⟨rest, text⟩
    exact ⟨rest, text.symm⟩

theorem afterSlash_sublist_segmentsText (rendered : r.renderPath = .ok path) :
    (afterSlash path).Sublist (segmentsText r) := by
  have text := toList_renderPath_segments rendered
  split at text
  · rw [afterSlash, if_pos (startsWith_slash_iff.mpr ⟨_, text⟩), text, List.tail_cons]
  · rw [← text]
    exact afterSlash_sublist path

/-- The path starts with the slash of the template, unless a value makes it start with another. -/
theorem afterSlash_eq_iff (rendered : r.renderPath = .ok path) :
    afterSlash path = segmentsText r ↔
      (Text.startsWith path "/" = true → Text.startsWith r.path "/" = true) := by
  have text := toList_renderPath_segments rendered
  unfold afterSlash
  split at text
  · next first =>
    rw [if_pos (startsWith_slash_iff.mpr ⟨_, text⟩), text, List.tail_cons]
    exact ⟨fun _ _ => first, fun _ => rfl⟩
  · next first =>
    rw [← text]
    split
    · next start =>
      obtain ⟨rest, shape⟩ := startsWith_slash_iff.mp start
      rw [shape, List.tail_cons]
      constructor
      · intro same
        exact absurd same (List.cons_ne_self _ _).symm
      · intro h
        exact absurd (h start) first
    · next other => exact ⟨fun _ start => absurd start other, fun _ => rfl⟩

theorem mem_renderPath (rendered : r.renderPath = .ok path) {c : Char}
    (h : .char c ∈ symbols r.path) : c ∈ path.toList := by
  rw [toList_renderPath rendered]
  exact List.mem_flatMap.mpr ⟨_, h, by simp [Symbol.rendered]⟩

theorem mem_afterSlash {c : Char} (h : c ∈ path.toList) (other : c ≠ '/') : c ∈ afterSlash path := by
  unfold afterSlash
  split
  · next start =>
    obtain ⟨rest, shape⟩ := startsWith_slash_iff.mp start
    rw [shape] at h
    rw [shape]
    exact (List.mem_cons.mp h).resolve_left other
  · exact h

theorem counts_iff (rendered : r.renderPath = .ok path) :
    (∀ c ∈ afterSlash path, counts c = true) ↔
      ∀ c ∈ "\t\n\r".toList, .char c ∉ symbols r.path := by
  constructor
  · intro h c hc mem
    have blank : ∀ c ∈ "\t\n\r".toList, counts c = false ∧ c ≠ '/' :=
      Text.forall_mem (by decide)
    have counted := h c (mem_afterSlash (mem_renderPath rendered mem) (blank c hc).2)
    rw [(blank c hc).1] at counted
    cases counted
  · intro h c hc
    rcases of_mem_renderPath rendered ((afterSlash_sublist path).subset hc) with mem | ⟨-, -, shown⟩
    · unfold counts
      rw [decide_eq_true_iff]
      refine ⟨?_, ?_, ?_⟩ <;> rintro rfl <;> exact h _ (by decide) mem
    · exact counts_of_visible shown

theorem getLast?_afterSlash (path : String) :
    (∀ c ∈ (afterSlash path).getLast?, 32 < c.toNat) ↔
      ∀ c ∈ path.toList.getLast?, 32 < c.toNat := by
  unfold afterSlash
  split
  · next start =>
    obtain ⟨rest, shape⟩ := startsWith_slash_iff.mp start
    rw [shape, List.tail_cons]
    cases rest with
    | nil => simp
    | cons d rest => rw [List.getLast?_cons_cons]
  · rfl

theorem arriving_eq_iff (rendered : r.renderPath = .ok path) :
    r.arriving path = afterSlash path ↔
      (∀ c ∈ "\t\n\r".toList, .char c ∉ symbols r.path) ∧
        (r.queryText = none → ∀ c ∈ path.toList.getLast?, 32 < c.toNat) := by
  rw [← counts_iff rendered, ← getLast?_afterSlash]
  unfold arriving
  cases r.queryText with
  | none =>
    rw [if_neg (by simp), tidied_eq_self_iff]
    simp
  | some q =>
    rw [if_pos (by simp), List.filter_eq_self]
    simp

/-! ### The layout of the target -/

/-- What it takes for the segments of a request to arrive as they are. The base has nothing after its
path; no segment is dots, also none that values fill in; the template has no characters that are read
as slashes or not at all; the path does not end with blanks, unless a query comes after it; and it
starts with a slash only if the template does. -/
structure Arrives (r : Request) (base : Url) (path : String) : Prop where
  query : base.query = none
  fragment : base.fragment = none
  dots : "." ∉ r.filled ∧ ".." ∉ r.filled
  backslash : .char '\\' ∉ symbols r.path
  blanks : ∀ c ∈ "\t\n\r".toList, .char c ∉ symbols r.path
  ending : r.queryText = none → ∀ c ∈ path.toList.getLast?, 32 < c.toNat
  start : Text.startsWith path "/" = true → Text.startsWith r.path "/" = true

theorem pieces_segmentsText (backslash : .char '\\' ∉ symbols r.path) :
    Text.pieces (isSlash true) (segmentsText r) = segmentTexts r := by
  refine Text.pieces_intercalate (by decide) (segmentTexts_ne_nil r) fun part hpart c hc => ?_
  obtain ⟨segment, hsegment, rfl⟩ := List.mem_map.mp hpart
  obtain ⟨s, hs, hc⟩ := List.mem_flatMap.mp hc
  obtain ⟨mem, slash⟩ := exists_mem_segments.mp ⟨segment, hsegment, hs⟩
  cases s with
  | char d =>
    rw [Symbol.rendered, String.toList_singleton, List.mem_singleton] at hc
    rw [Bool.eq_false_iff]
    intro sep
    simp only [isSlash, Bool.true_and, Bool.or_eq_true, decide_eq_true_eq] at sep
    rcases sep with rfl | rfl
    · exact slash (by rw [hc])
    · exact backslash (hc ▸ mem)
  | value name => exact (of_mem_encodeSegment hc).2.1

theorem noDots (percent : .char '%' ∉ symbols r.path) (dots : "." ∉ r.filled ∧ ".." ∉ r.filled)
    {part : List Char} (mem : part ∈ segmentTexts r) :
    isSingleDot part = false ∧ isDoubleDot part = false := by
  have there : encodePart pathExtra part ∈ r.filled := by
    rw [filled_eq]
    exact List.mem_map_of_mem mem
  have plain : plainDots part = part := by
    obtain ⟨segment, hsegment, rfl⟩ := List.mem_map.mp mem
    exact plainDots_segmentText fun hs => percent (exists_mem_segments.mp ⟨segment, hsegment, hs⟩).1
  constructor
  · refine Bool.eq_false_iff.mpr fun dot => dots.1 ?_
    rw [isSingleDot, plain, beq_iff_eq] at dot
    rw [dot] at there
    exact there
  · refine Bool.eq_false_iff.mpr fun dot => dots.2 ?_
    rw [isDoubleDot, plain, beq_iff_eq] at dot
    rw [dot] at there
    exact there

theorem noTail_of_literal (rendered : r.renderPath = .ok path)
    (literal : ∀ c ∈ "?#%".toList, .char c ∉ symbols r.path) :
    '?' ∉ path.toList ∧ '#' ∉ path.toList := by
  constructor <;> intro mem <;> rcases of_mem_renderPath rendered mem with mem | ⟨kept, -⟩
  · exact literal _ (by decide) mem
  · exact absurd kept (by decide)
  · exact literal _ (by decide) mem
  · exact absurd kept (by decide)

theorem target_of_arrives (settled : base.Settled) (rendered : r.renderPath = .ok path)
    (literal : ∀ c ∈ "?#%".toList, .char c ∉ symbols r.path) (arrives : r.Arrives base path) :
    r.target base = .ok { base with
      path := .segments (baseSegments base ++ r.filled)
      query := r.queryText
      fragment := none } := by
  have whole : r.arriving path = segmentsText r :=
    ((arriving_eq_iff rendered).mpr ⟨arrives.blanks, arrives.ending⟩).trans
      ((afterSlash_eq_iff rendered).mpr arrives.start)
  have dots {part : List Char} (mem : part ∈ segmentTexts r) :=
    noDots (literal '%' (by decide)) arrives.dots mem
  rw [target_of_bare settled arrives.query arrives.fragment rendered
    (noTail_of_literal rendered literal), whole, pieces_segmentsText arrives.backslash,
    appendSegments_of_noDots _ (fun _ mem => (dots mem).1) fun _ mem => (dots mem).2, filled_eq]

/-- The segments that are read are settled, and so are those that are meant when they are the same. -/
theorem settled_filled (settled : base.Settled)
    (same : appendSegments false (baseSegments base)
      (Text.pieces (isSlash true) (r.arriving path)) = baseSegments base ++ r.filled) :
    ∀ s ∈ r.filled, SettledSegment s := by
  have whole : ∀ part ∈ Text.pieces (isSlash true) (r.arriving path), ∀ c ∈ part,
      isSlash true c = false := fun part hpart c hc => (Text.mem_of_mem_pieces hpart hc).2
  intro s hs
  refine (settled_appendSegments (settled_baseSegments settled) whole
    (Text.pieces_ne_nil _ _)).2 s ?_
  rw [same]
  exact List.mem_append_right _ hs

/-- The segments that are read have the length of those that are meant only when all of the text
arrives. -/
theorem arriving_eq_segmentsText (rendered : r.renderPath = .ok path)
    (same : appendSegments false (baseSegments base)
      (Text.pieces (isSlash true) (r.arriving path)) = baseSegments base ++ r.filled) :
    r.arriving path = segmentsText r := by
  have most := length_slashed_appendSegments (baseSegments base)
    (Text.pieces (isSlash true) (r.arriving path))
  rw [same, slashed_append, filled_eq, slashed_map_encodePart (segmentTexts_ne_nil r),
    length_slashed_pieces, List.length_append, List.length_cons] at most
  have length : (encoded (segmentsText r)).length ≤ (encoded (r.arriving path)).length :=
    Nat.le_of_add_le_add_right (Nat.le_of_add_le_add_left most)
  exact eq_of_length_encoded
    ((arriving_sublist r path).trans (afterSlash_sublist_segmentsText rendered)) length

theorem backslash_of_settled (each : ∀ s ∈ r.filled, SettledSegment s) :
    .char '\\' ∉ symbols r.path := by
  intro mem
  obtain ⟨segment, hsegment, hs⟩ := exists_mem_segments.mpr ⟨mem, by decide⟩
  have text : '\\' ∈ segmentText r segment :=
    List.mem_flatMap.mpr ⟨_, hs, by simp [Symbol.rendered]⟩
  have there : encodePart pathExtra (segmentText r segment) ∈ r.filled := by
    rw [filled_eq]
    exact List.mem_map_of_mem (List.mem_map_of_mem hsegment)
  exact absurd ((each _ there).whole _ (mem_encodePart text (by decide))) (by decide)

theorem arrives_of_target (settled : base.Settled) (rendered : r.renderPath = .ok path)
    (literal : ∀ c ∈ "?#%".toList, .char c ∉ symbols r.path)
    (target : r.target base = .ok { base with
      path := .segments (baseSegments base ++ r.filled)
      query := r.queryText
      fragment := none }) : r.Arrives base path := by
  obtain ⟨query, fragment⟩ := bare_of_target settled rendered target rfl rfl
  rw [target_of_bare settled query fragment rendered (noTail_of_literal rendered literal)] at target
  have same : appendSegments false (baseSegments base)
      (Text.pieces (isSlash true) (r.arriving path)) = baseSegments base ++ r.filled := by
    injection target with target
    injection target with _ _ _ _ _ path
    injection path
  have each := settled_filled settled same
  have whole := arriving_eq_segmentsText rendered same
  -- What arrives is part of the path, and that is part of the text of the segments.
  have start : afterSlash path = segmentsText r :=
    (afterSlash_sublist_segmentsText rendered).antisymm (whole ▸ arriving_sublist r path)
  obtain ⟨blanks, ending⟩ := (arriving_eq_iff rendered).mp (whole.trans start.symm)
  have dots : "." ∉ r.filled ∧ ".." ∉ r.filled :=
    ⟨fun mem => absurd (each _ mem).single (by decide),
      fun mem => absurd (each _ mem).double (by decide)⟩
  exact ⟨query, fragment, dots, backslash_of_settled each, blanks, ending,
    (afterSlash_eq_iff rendered).mp start⟩

/-- The target of a request has the segments of the base, then those of the template with encoded
values in them, exactly when nothing gets in the way; and the segments decode to those of the
template with the values as they are. -/
theorem target_layout {choice : Option BaseUrlChoice} {d : Document} {location : String}
    (resolved : BaseUrl.resolve choice d location = .ok base)
    (literal : ∀ c ∈ "?#%".toList, .char c ∉ symbols r.path)
    (rendered : r.renderPath = .ok path) :
    (r.target base = .ok { base with
        path := .segments (base.path.list.rdropWhile String.isEmpty ++ r.filled)
        query := r.queryText
        fragment := none } ↔ r.Arrives base path) ∧
      r.filled.map Percent.decode = r.meant := by
  have settled := BaseUrl.settled_of_resolve resolved
  refine ⟨⟨fun target => ?_, fun arrives => ?_⟩, decode_filled (literal '%' (by decide))⟩
  · exact arrives_of_target settled rendered literal target
  · exact target_of_arrives settled rendered literal arrives

/-! ### Requests for pets -/

def petsBase (query : Option String) : Url :=
  { scheme := "https", username := "", password := "", host := some (.domain "api.example.com")
    port := none, path := .segments ["v1"], query, fragment := none }

/-- The request for the first of the pets of an owner. -/
def petsOf (owner : String) : Request :=
  { method := "GET", path := "/owners/\x7bowner\x7d/pets", pathValues := ⟨[("owner", .str owner)]⟩
    query := ⟨[("limit", .str "1")]⟩, headers := ⟨[]⟩, cookies := ⟨[]⟩, payload := none }

/-- An owner with a slash stays one segment. -/
theorem target_layout_pets :
    BaseUrl.resolve (some (.explicit "https://api.example.com/v1/")) ⟨.null⟩ "spec.json" =
        .ok { petsBase none with path := .segments ["v1", ""] } ∧
      (petsOf "a/b").renderPath = .ok "/owners/a%2Fb/pets" ∧
      (petsOf "a/b").target { petsBase none with path := .segments ["v1", ""] } =
        .ok { petsBase (some "limit=1") with path := .segments ["v1", "owners", "a%2Fb", "pets"] } ∧
      ["owners", "a%2Fb", "pets"].map Percent.decode = ["owners", "a/b", "pets"] := by
  have resolved : BaseUrl.resolve (some (.explicit "https://api.example.com/v1/")) ⟨.null⟩
      "spec.json" = .ok { petsBase none with path := .segments ["v1", ""] } := by decide +kernel
  have literal : ∀ c ∈ "?#%".toList, .char c ∉ symbols (petsOf "a/b").path :=
    Text.forall_mem (by decide +kernel)
  have rendered : (petsOf "a/b").renderPath = .ok "/owners/a%2Fb/pets" := by decide +kernel
  have arrives : (petsOf "a/b").Arrives { petsBase none with path := .segments ["v1", ""] }
      "/owners/a%2Fb/pets" := {
    query := rfl
    fragment := rfl
    dots := by decide +kernel
    backslash := by decide +kernel
    blanks := Text.forall_mem (by decide +kernel)
    ending := by decide +kernel
    start := by decide +kernel }
  have filled : (petsOf "a/b").filled = ["owners", "a%2Fb", "pets"] := by decide +kernel
  have meant : (petsOf "a/b").meant = ["owners", "a/b", "pets"] := by decide +kernel
  have query : (petsOf "a/b").queryText = some "limit=1" := by decide +kernel
  obtain ⟨layout, decoded⟩ := target_layout resolved literal rendered
  rw [filled, meant] at decoded
  refine ⟨resolved, rendered, ?_, decoded⟩
  rw [layout.mpr arrives, filled, query]
  rfl

/-- A base with a query takes the path into it, and an owner of two dots takes a segment away. -/
theorem target_disturbed :
    (BaseUrl.resolve (some (.explicit "https://api.example.com/v1?key=abc")) ⟨.null⟩ "spec.json" =
        .ok (petsBase (some "key=abc")) ∧
      (∀ c ∈ "?#%".toList, .char c ∉ symbols (petsOf "7").path) ∧
      (petsOf "7").renderPath = .ok "/owners/7/pets" ∧
      (petsOf "7").target (petsBase (some "key=abc")) =
        .ok (petsBase (some "key=abc/owners/7/pets?limit=1"))) ∧
    (BaseUrl.resolve (some (.explicit "https://api.example.com/v1")) ⟨.null⟩ "spec.json" =
        .ok (petsBase none) ∧
      (∀ c ∈ "?#%".toList, .char c ∉ symbols (petsOf "..").path) ∧
      (petsOf "..").renderPath = .ok "/owners/../pets" ∧
      (petsOf "..").target (petsBase none) =
        .ok { petsBase (some "limit=1") with path := .segments ["v1", "pets"] }) := by
  have literal : ∀ c ∈ "?#%".toList, .char c ∉ symbols (petsOf "7").path :=
    Text.forall_mem (by decide +kernel)
  refine ⟨⟨?_, literal, ?_, ?_⟩, ?_, literal, ?_, ?_⟩ <;> decide +kernel

end ToolGateway.Request
