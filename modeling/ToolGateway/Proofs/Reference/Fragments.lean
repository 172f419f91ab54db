import ToolGateway.Proofs.Json.Path
import ToolGateway.Proofs.Json.Within
import ToolGateway.Proofs.Reference.Escapes
import ToolGateway.Proofs.Text.Pieces
import ToolGateway.Reference.Library
import ToolGateway.Request.Basic

/-!
# References written from paths

A path in a document is written as a reference within it: a number sign, and for each step a slash
and the step, in which tildes and slashes are escaped and then every byte that is not unreserved is
percent-encoded. Reading undoes both layers, the outer one first, whatever the keys on the path hold:
the fragment is decoded to the text of the pointer (`ofFragment_fragment`), the text is cut into the
steps (`steps?_text`), and the steps lead to where the path leads (`follow_path`). So the reference
is looked up to just what stands there (`find?_localReference`).
-/

namespace ToolGateway

/-! ### Numerals -/

theorem decimal?_decimal (n : Nat) : decimal? (decimal n) = some n := by
  have digits : ∀ c ∈ Nat.toDigits 10 n, isDigit c = true := by
    intro c hc
    have := Nat.isDigit_of_mem_toDigits (by decide) (by decide) hc
    simpa [Char.isDigit, isDigit, Char.le_def] using this
  have filled : (Nat.toDigits 10 n).isEmpty = false := by simp
  rw [decimal?, decimal, String.toList_ofList]
  simp only [filled, List.all_eq_true.mpr digits, Bool.not_true, Bool.or_self, Bool.false_eq_true,
    if_false]
  exact congrArg some Nat.ofDigitChars_ten_toDigits

/-- Only the numeral of zero starts with a zero. -/
theorem exists_toDigits {n : Nat} (h : n ≠ 0) :
    ∃ d rest, Nat.toDigits 10 n = d :: rest ∧ d ≠ '0' := by
  induction n using Nat.strongRecOn with
  | _ n ih =>
    rw [Nat.toDigits_eq_if (by decide)]
    split
    · exact ⟨_, [], rfl, by simpa using h⟩
    · obtain ⟨d, rest, same, other⟩ := ih (n / 10) (by omega) (by omega)
      exact ⟨d, _, by rw [same, List.cons_append], other⟩

namespace Pointer

/-- The numeral of an index is read as that index. -/
theorem index?_decimal {n : Nat} (h : n < 0x10000000000000000) : index? (decimal n) = some n := by
  have plain : ¬ (Text.startsWith (decimal n) "0" && decimal n != "0") = true := by
    by_cases zero : n = 0
    · subst zero
      decide
    · obtain ⟨d, rest, same, other⟩ := exists_toDigits zero
      have first : Text.startsWith (decimal n) "0" = false := by
        rw [Text.startsWith, decimal, String.toList_ofList, same]
        simpa [List.isPrefixOf] using other.symm
      rw [first, Bool.false_and]
      exact Bool.false_ne_true
  rw [index?, if_neg plain, decimal?_decimal, Option.filter_some, if_pos (decide_eq_true h)]

/-! ### Steps in the text of a pointer -/

/-- What a character of a step is written as. -/
def escapeChar (c : Char) : List Char :=
  if c = '~' then ['~', '0'] else if c = '/' then ['~', '1'] else [c]

/-- The text of a step with its tildes and slashes escaped. -/
def escape (step : String) : String := String.ofList (step.toList.flatMap escapeChar)

/-- The text of the pointer that goes some steps. -/
def text : List String → String
  | [] => ""
  | step :: steps => "/" ++ escape step ++ text steps

theorem unescape_cons_of_ne {c : Char} (h : c ≠ '~') (rest : List Char) :
    unescape (c :: rest) = c :: unescape rest := by
  rw [unescape.eq_def]
  split
  · next same => exact absurd (List.cons.inj same).1 h
  · next same => exact absurd (List.cons.inj same).1 h
  · next same => rw [(List.cons.inj same).1, (List.cons.inj same).2]
  · next same => cases same

theorem unescape_flatMap_escapeChar (cs : List Char) : unescape (cs.flatMap escapeChar) = cs := by
  induction cs with
  | nil => rfl
  | cons c cs ih =>
    rw [List.flatMap_cons, escapeChar]
    split
    · next tilde =>
      rw [tilde]
      exact congrArg ('~' :: ·) ih
    · next other =>
      split
      · next slash =>
        rw [slash]
        exact congrArg ('/' :: ·) ih
      · exact (unescape_cons_of_ne other _).trans (congrArg (c :: ·) ih)

theorem slash_notMem_escape (step : String) : ∀ c ∈ (escape step).toList, (c == '/') = false := by
  intro c hc
  rw [escape, String.toList_ofList, List.mem_flatMap] at hc
  obtain ⟨d, -, hc⟩ := hc
  rw [beq_eq_false_iff_ne]
  unfold escapeChar at hc
  split at hc
  · rintro rfl
    simp at hc
  · split at hc
    · rintro rfl
      simp at hc
    · next other =>
      rw [List.mem_singleton.mp hc]
      exact other

/-- Behind the first slash the text of a pointer is cut into its escaped steps. -/
theorem pieces_text (step : String) (steps : List String) :
    Text.pieces (· == '/') ((escape step).toList ++ (text steps).toList) =
      (step :: steps).map fun s => (escape s).toList := by
  induction steps generalizing step with
  | nil =>
    rw [text, String.toList_empty, List.append_nil]
    exact Text.pieces_of_forall (slash_notMem_escape step)
  | cons next steps ih =>
    have rest : (text (next :: steps)).toList =
        '/' :: ((escape next).toList ++ (text steps).toList) := by
      rw [text, String.append_assoc, String.toList_append, String.toList_append]
      rfl
    rw [rest, Text.pieces_append_cons (slash_notMem_escape step) rfl, ih next]
    rfl

/-- The text of a pointer is read as its steps. -/
theorem steps?_text (steps : List String) : steps? (text steps) = some steps := by
  cases steps with
  | nil => rfl
  | cons step steps =>
    have first : (text (step :: steps)).toList =
        '/' :: ((escape step).toList ++ (text steps).toList) := by
      rw [text, String.append_assoc, String.toList_append, String.toList_append]
      rfl
    rw [steps?, first]
    simp only [pieces_text, List.map_map]
    have back : ∀ s : String, String.ofList (unescape (escape s).toList) = s := by
      intro s
      rw [escape, String.toList_ofList, unescape_flatMap_escapeChar, String.ofList_toList]
    exact congrArg some ((List.map_congr_left fun s _ => back s).trans (List.map_id _))

/-! ### Percent-encoded steps -/

/-- The fragment that is written for some steps. -/
def fragment : List String → String
  | [] => ""
  | step :: steps => "/" ++ Percent.encode Request.isUnreserved (escape step) ++ fragment steps

theorem readsHex_pair? : Percent.ReadsHex pair? := by
  rw [pair?_eq]
  exact readsHex_signedPair?

theorem isUnreserved_safe (b : UInt8) (h : Request.isUnreserved b = true) :
    b.toNat < 128 ∧ b ≠ 37 := by
  have all : ∀ n < 256, Request.isUnreserved (UInt8.ofNat n) = true →
      n < 128 ∧ UInt8.ofNat n ≠ 37 := by decide +kernel
  have := all b.toNat b.toNat_lt
  rw [UInt8.ofNat_toNat] at this
  exact this h

theorem decodeBytesBy_fragment (steps : List String) :
    Percent.decodeBytesBy pair? (Utf8.encode (fragment steps)) = Utf8.encode (text steps) := by
  induction steps with
  | nil => rfl
  | cons step steps ih =>
    have slash : Utf8.encode "/" = [47] := by decide
    rw [fragment, text, String.append_assoc, String.append_assoc]
    simp only [Utf8.encode_append, slash, List.cons_append, List.nil_append]
    rw [Percent.decodeBytesBy_cons_of_ne (by decide),
      Percent.decodeBytesBy_encode readsHex_pair? fun b _ => isUnreserved_safe b, ih]

/-- A fragment is decoded to the text of its pointer. -/
theorem ofFragment_fragment (steps : List String) : ofFragment (fragment steps) = text steps := by
  rw [ofFragment_eq, decodeBytesBy_fragment, Utf8.decodeLossy_encode]

end Pointer

/-! ### Paths -/

namespace Json

/-- How a step is written: a key as it is, an index as its numeral. -/
def Step.text : Step → String
  | .member key => key
  | .item index => decimal index

/-- Every item of an array in the value has an index of 64 bits. -/
def Addressable (v : Json) : Prop :=
  ∀ items, (Json.arr items).Within v → items.length ≤ 0x10000000000000000

/-- The reference to what a path leads to in the document where the reference stands. -/
def localReference (path : Path) : String := "#" ++ Pointer.fragment (path.map Step.text)

variable {v u w : Json} {step : Step} {path : Path}

theorem child?_text (h : v.Addressable) (there : v.down? step = some u) :
    Pointer.child? v step.text = some u := by
  cases v <;> cases step <;> try cases there
  · next items index =>
    obtain ⟨inside, -⟩ := List.getElem?_eq_some_iff.mp there
    have small : index < 0x10000000000000000 := Nat.lt_of_lt_of_le inside (h items .self)
    show (Pointer.index? (decimal index)).bind (items[·]?) = _
    rw [Pointer.index?_decimal small]
    exact there
  · exact there

/-- The steps of a path lead to where it leads. -/
theorem follow_path (h : v.Addressable) (found : v.at? path = some w) :
    Pointer.follow v (path.map Step.text) = some w := by
  induction path generalizing v with
  | nil => exact found
  | cons step path ih =>
    obtain ⟨u, there, inner⟩ := Option.bind_eq_some_iff.mp found
    have child := child?_text h there
    have small : u.Addressable := fun items within =>
      h items (within.trans (Pointer.within_of_child? child))
    rw [List.map_cons, Pointer.follow, List.foldlM_cons, child]
    exact ih small inner

/-- A path is read from its fragment. -/
theorem find?_path (h : v.Addressable) (found : v.at? path = some w) :
    Pointer.find? v (Pointer.ofFragment (Pointer.fragment (path.map Step.text))) = some w := by
  rw [Pointer.ofFragment_fragment, Pointer.find?, Pointer.steps?_text]
  exact follow_path h found

end Json

namespace Target

open Json

theorem parts_localReference (path : Path) :
    parts (localReference path) = ("", some (Pointer.fragment (path.map Step.text))) := by
  have split : Text.splitOnce? '#' (localReference path).toList =
      some ([], (Pointer.fragment (path.map Step.text)).toList) := by
    rw [localReference, String.toList_append]
    exact Text.splitOnce?_cons_self _
  rw [parts, split]
  simp only [String.ofList_toList]

/-- The fragment of a path of some steps starts with the slash before the first. -/
theorem pointerOf_fragment (base : Source) (reference step : String) (steps : List String) :
    pointerOf base reference (some (Pointer.fragment (step :: steps))) =
      .ok (some (Pointer.ofFragment (Pointer.fragment (step :: steps)))) := by
  have slash : (Pointer.fragment (step :: steps)).toList = '/' ::
      (Percent.encode Request.isUnreserved (Pointer.escape step) ++
        Pointer.fragment steps).toList := by
    rw [Pointer.fragment, String.append_assoc, String.toList_append]
    rfl
  have filled : (Pointer.fragment (step :: steps)).isEmpty = false := by
    rw [← Bool.not_eq_true, String.isEmpty_iff]
    intro empty
    rw [empty] at slash
    cases slash
  have starts : Text.startsWith (Pointer.fragment (step :: steps)) "/" = true := by
    rw [Text.startsWith, slash]
    rfl
  simp only [pointerOf, filled, starts, if_true, Bool.false_eq_true, if_false]

/-- The target of a reference within a document. -/
theorem parse_localReference (files : Files) (base : Source) (path : Path) :
    parse files base (localReference path) = .ok ⟨base, if path = [] then none
      else some (Pointer.ofFragment (Pointer.fragment (path.map Step.text)))⟩ := by
  have here : base.relative files "" = .ok base := if_pos rfl
  have pointer : pointerOf base (localReference path)
      (some (Pointer.fragment (path.map Step.text))) = .ok (if path = [] then none
        else some (Pointer.ofFragment (Pointer.fragment (path.map Step.text)))) := by
    cases path with
    | nil => rfl
    | cons step path => exact pointerOf_fragment base _ step.text _
  simp only [parse, parts_localReference, here, pointer, bind, Except.bind, pure, Except.pure]

end Target

open Json in
/-- The reference that is written for a path within a loaded document is looked up to what the path
leads to, whatever its keys are. -/
theorem Library.find?_localReference {l : Library} {base : Source} {d : Source × Json}
    {path : Path} {node : Json} (files : Files) (loaded : l.document? base = some d)
    (small : d.2.Addressable) (found : d.2.at? path = some node) :
    ∃ t, Target.parse files base (localReference path) = .ok t ∧ t.source = base ∧
      l.find? t = some (base, node) := by
  refine ⟨_, Target.parse_localReference files base path, rfl, ?_⟩
  rw [find?, loaded]
  cases path with
  | nil =>
    cases found
    rfl
  | cons step path =>
    rw [if_neg (List.cons_ne_nil _ _)]
    show (Pointer.find? d.2 _).map _ = _
    rw [find?_path small found]
    rfl

namespace Sample

/-- Keys that do not stand for themselves in a fragment, and an item between them. -/
def oddKeys : Json := .object [
  ("", .object [("a/b~c%d#e f", .object [("ü😀", .arr [.null, .object [("~1", .bool true)]])])])]

/-- The way to what stands innermost. -/
def oddPath : Json.Path := [.member "", .member "a/b~c%d#e f", .member "ü😀", .item 1, .member "~1"]

theorem localReference_oddPath :
    Json.localReference oddPath = "#//a~1b~0c%25d%23e%20f/%C3%BC%F0%9F%98%80/1/~01" := by
  decide +kernel

theorem addressable_oddKeys : oddKeys.Addressable := by
  intro items within
  have place : items = [.null, .object [("~1", .bool true)]] ∨ (Json.arr items).Within .null ∨
      (Json.arr items).Within (.bool true) := by
    simpa [oddKeys, Json.object, Json.within_obj_iff, Json.within_arr_iff] using within
  rcases place with rfl | ⟨⟨⟩⟩ | ⟨⟨⟩⟩
  decide

end Sample

open Sample in
/-- The reference to what stands below keys with slashes, tildes, percent signs, number signs, blanks
and letters beyond ASCII, and below the empty key. -/
theorem Library.find?_localReference_oddPath :
    ∃ t, Target.parse ⟨[], [], []⟩ (.file "/api.json")
        "#//a~1b~0c%25d%23e%20f/%C3%BC%F0%9F%98%80/1/~01" = .ok t ∧
      t.source = .file "/api.json" ∧
      find? ⟨[(.file "/api.json", oddKeys)]⟩ t = some (.file "/api.json", .bool true) := by
  rw [← localReference_oddPath]
  exact find?_localReference (d := (.file "/api.json", oddKeys)) ⟨[], [], []⟩ (by rfl)
    addressable_oddKeys (by rfl)

end ToolGateway
