import ToolGateway.Proofs.Reference.Escapes
import ToolGateway.Proofs.Reference.Keys
import ToolGateway.Reference.Expansion

/-!
# Targets with one key

In a key nothing is escaped, so a number sign in it may end the text of the source, or stand in it.
The URL of a page has none, but the path of a file can: a reference that is a URL writes it `%23`. A
target in a file then has the key of another one when the path of the other's file is its own path, a
number sign and more, and its pointer is that rest and what the other points to (`Overlaps`). A
pointer starts with a slash, so this takes a folder whose name ends with the number sign. Apart from
such pairs, targets with one key are one (`key_injective_iff`).
-/

namespace ToolGateway

/-- The sources that documents can have: a location names them, or references lead to them from
sources that documents can have. The files may change from one step to the next. -/
inductive Source.Arises : Source → Prop
  | location {files : Files} {location : String} {s : Source} :
      parse files location = .ok s → s.Arises
  | reference {files : Files} {base : Source} {reference : String} {t : Target} :
      base.Arises → Target.parse files base reference = .ok t → t.source.Arises

theorem Source.Arises.clean {s : Source} (h : s.Arises) : s.Clean := by
  induction h with
  | location read => exact (parse_spec read).1
  | reference _ read ih => exact (Target.parse_spec ih read).1

/-- Two texts in a row are the same as two others when they differ only in where they are cut. -/
theorem Text.append_eq_append_cases {a b c d : String} (h : a ++ b = c ++ d) :
    (∃ x, c = a ++ x ∧ b = x ++ d) ∨ ∃ x, a = c ++ x ∧ d = x ++ b := by
  have lists := congrArg String.toList h
  rw [String.toList_append, String.toList_append, List.append_eq_append_iff] at lists
  rcases lists with ⟨cs, first, second⟩ | ⟨cs, first, second⟩
  · refine Or.inl ⟨String.ofList cs, ?_, ?_⟩ <;>
      rw [← String.toList_inj, String.toList_append, String.toList_ofList]
    exacts [first, second]
  · refine Or.inr ⟨String.ofList cs, ?_, ?_⟩ <;>
      rw [← String.toList_inj, String.toList_append, String.toList_ofList]
    exacts [first, second]

namespace Target

/-- The targets that references can have. -/
def Arises (t : Target) : Prop :=
  ∃ files base reference, base.Arises ∧ parse files base reference = .ok t

variable {s t : Target} {pointer : String}

theorem Arises.source (h : t.Arises) : t.source.Arises := by
  obtain ⟨files, base, reference, arises, read⟩ := h
  exact .reference arises read

theorem exists_slash_of_pointerOf {base : Source} {reference : String} {fragment : Option String}
    (h : pointerOf base reference fragment = .ok (some pointer)) : ∃ rest, pointer = "/" ++ rest := by
  cases fragment with
  | none => cases h
  | some fragment =>
    unfold pointerOf at h
    dsimp only at h
    split_ifs at h with empty starts
    · cases h
    · obtain ⟨cs, same⟩ := List.isPrefixOf_iff_prefix.mp starts
      have whole : fragment = "/" ++ String.ofList cs := by
        rw [← String.toList_inj, ← same, String.toList_append]
        exact congrArg _ String.toList_ofList.symm
      cases h
      exact ⟨_, by rw [whole, Pointer.ofFragment_slash]⟩

/-- A pointer starts with the slash before its first step. -/
theorem Arises.exists_slash (h : t.Arises) (there : t.pointer = some pointer) :
    ∃ rest, pointer = "/" ++ rest := by
  obtain ⟨files, base, reference, -, read⟩ := h
  obtain ⟨source, -, read⟩ := Except.ok_of_bind read
  obtain ⟨found, here, read⟩ := Except.ok_of_bind read
  cases read
  dsimp only at there
  rw [there] at here
  exact exists_slash_of_pointerOf here

/-! ### What stands behind the source -/

/-- What the key says after the text of the source. -/
def suffix (t : Target) : String := (t.pointer.map ("#" ++ ·)).getD ""

theorem suffix_of_none (h : t.pointer = none) : t.suffix = "" := by
  rw [suffix, h]
  rfl

theorem suffix_of_some (h : t.pointer = some pointer) : t.suffix = "#" ++ pointer := by
  rw [suffix, h]
  rfl

theorem key_eq (t : Target) : t.key = t.source.key ++ t.suffix := by
  unfold key suffix
  cases t.pointer with
  | none => exact String.append_empty.symm
  | some pointer => exact String.append_assoc ..

theorem pointer_eq_of_suffix (h : s.suffix = t.suffix) : s.pointer = t.pointer := by
  unfold suffix at h
  cases here : s.pointer <;> cases there : t.pointer <;> rw [here, there] at h
  · simp at h
  · simp at h
  · exact congrArg some ((String.append_right_inj _).mp h)

theorem slash_cons_ne_suffix (t : Target) (cs : List Char) : '/' :: cs ≠ t.suffix.toList := by
  cases there : t.pointer with
  | none => simp [suffix_of_none there]
  | some pointer => simp [suffix_of_some there]

/-- What a suffix has in front of another one begins with the number sign and the first slash. -/
theorem Arises.slash_of_suffix (hs : s.Arises) {x : String} (h : s.suffix = x ++ t.suffix)
    (filled : x ≠ "") : ∃ more, x = "#/" ++ more ∧ s.pointer = some ("/" ++ more ++ t.suffix) := by
  cases here : s.pointer with
  | none =>
    rw [suffix_of_none here] at h
    exact absurd (String.append_eq_empty_iff.mp h.symm).1 filled
  | some pointer =>
    obtain ⟨rest, rfl⟩ := hs.exists_slash here
    have lists := congrArg String.toList h
    simp only [suffix_of_some here, String.toList_append] at lists
    have signs : '#' :: '/' :: rest.toList = x.toList ++ t.suffix.toList := lists
    match text : x.toList with
    | [] => exact absurd (String.toList_eq_nil_iff.mp text) filled
    | [c] =>
      rw [text] at signs
      exact absurd (List.cons.inj signs).2 (slash_cons_ne_suffix t _)
    | c :: d :: more =>
      rw [text] at signs
      obtain ⟨sign, signs⟩ := List.cons.inj signs
      obtain ⟨slash, later⟩ := List.cons.inj signs
      have behind : rest = String.ofList more ++ t.suffix := by
        rw [← String.toList_inj, String.toList_append, String.toList_ofList]
        exact later
      refine ⟨String.ofList more, ?_, by rw [behind, String.append_assoc]⟩
      rw [← String.toList_inj, text, ← sign, ← slash, String.toList_append]
      exact congrArg ('#' :: '/' :: ·) String.toList_ofList.symm

/-! ### Targets with one key -/

/-- The path of the other target's file is that of this one's, a number sign and a rest that starts
with a slash. The pointer is this rest, and then what the other key says behind its source. -/
def Overlaps (s t : Target) : Prop :=
  ∃ path more, s.source = .file path ∧ t.source = .file (path ++ "#/" ++ more) ∧
    s.pointer = some ("/" ++ more ++ t.suffix)

/-- Overlapping targets have one key. -/
theorem Overlaps.key_eq (h : s.Overlaps t) : s.key = t.key := by
  obtain ⟨path, more, here, there, pointer⟩ := h
  have sign : "#/" = "#" ++ "/" := by decide
  rw [Target.key_eq, Target.key_eq, here, there, suffix_of_some pointer, sign]
  simp only [Source.key, String.append_assoc]

/-- Overlapping targets have different pointers. -/
theorem Overlaps.pointer_ne (h : s.Overlaps t) : s.pointer ≠ t.pointer := by
  obtain ⟨path, more, -, -, pointer⟩ := h
  intro same
  rw [pointer] at same
  have longer := congrArg String.length (suffix_of_some same.symm)
  have sign : "#".length = 1 := rfl
  simp only [String.length_append, sign] at longer
  omega

theorem page_key_ne {u : Url} {path : String} (page : s.source = .page u)
    (file : t.source = .file path) : s.key ≠ t.key := by
  intro h
  have first := congrArg (·.toList.head?) h
  simp [key_eq, page, file, Source.key] at first

theorem signless_of_page {u : Url} (h : t.Arises) (page : t.source = .page u) :
    Text.Signless t.source.key := by
  refine Source.signless_key h.source.clean fun path file => ?_
  rw [page] at file
  cases file

/-- The file of the one target has the path of the other's, and more. -/
theorem eq_or_overlaps (hs : s.Arises) {path x : String} (here : s.source = .file path)
    (there : t.source = .file (path ++ x)) (h : s.suffix = x ++ t.suffix) :
    (s.source = t.source ∧ s.pointer = t.pointer) ∨ s.Overlaps t := by
  by_cases empty : x = ""
  · subst empty
    rw [String.empty_append] at h
    rw [String.append_empty] at there
    exact Or.inl ⟨here.trans there.symm, pointer_eq_of_suffix h⟩
  · obtain ⟨more, rfl, pointer⟩ := hs.slash_of_suffix h empty
    refine Or.inr ⟨path, more, here, ?_, pointer⟩
    rw [there, String.append_assoc]

/-- Targets with one key have one source and one pointer, or they overlap. -/
theorem eq_or_overlaps_of_key (hs : s.Arises) (ht : t.Arises) (h : s.key = t.key) :
    (s.source.key = t.source.key ∧ s.pointer = t.pointer) ∨ s.Overlaps t ∨ t.Overlaps s := by
  cases here : s.source with
  | page u =>
    cases there : t.source with
    | page v =>
      rw [← here, ← there]
      exact Or.inl (parts_of_key (signless_of_page hs here) (signless_of_page ht there) h)
    | file q => exact absurd h (page_key_ne here there)
  | file p =>
    cases there : t.source with
    | page v => exact absurd h.symm (page_key_ne there here)
    | file q =>
      have texts : p ++ s.suffix = q ++ t.suffix := by
        rw [key_eq, key_eq, here, there, Source.key, Source.key, String.append_assoc,
          String.append_assoc] at h
        exact (String.append_right_inj _).mp h
      rw [← here, ← there]
      -- One of the two paths is the beginning of the other.
      rcases Text.append_eq_append_cases texts with ⟨x, rfl, behind⟩ | ⟨x, rfl, behind⟩
      · rcases eq_or_overlaps hs here there behind with ⟨same, pointer⟩ | overlaps
        · exact Or.inl ⟨congrArg Source.key same, pointer⟩
        · exact Or.inr (Or.inl overlaps)
      · rcases eq_or_overlaps ht there here behind with ⟨same, pointer⟩ | overlaps
        · exact Or.inl ⟨congrArg Source.key same.symm, pointer.symm⟩
        · exact Or.inr (Or.inr overlaps)

/-- The key tells a target from another one, its document and its pointer, exactly when neither of
the two overlaps the other. -/
theorem key_injective_iff (hs : s.Arises) (ht : t.Arises) :
    (s.key = t.key → s.source.same t.source = true ∧ s.pointer = t.pointer) ↔
      ¬ s.Overlaps t ∧ ¬ t.Overlaps s := by
  constructor
  · intro tells
    exact ⟨fun overlaps => overlaps.pointer_ne (tells overlaps.key_eq).2,
      fun overlaps => overlaps.pointer_ne (tells overlaps.key_eq.symm).2.symm⟩
  · rintro ⟨apart, apart'⟩ h
    rcases eq_or_overlaps_of_key hs ht h with ⟨same, pointer⟩ | overlaps | overlaps
    · exact ⟨Source.same_iff.mpr (Source.identity_eq_of_key same), pointer⟩
    · exact absurd overlaps apart
    · exact absurd overlaps apart'

end Target

namespace Sample

def apiFile : Source := .file "/w/api.json"

/-- The place `/b` in the file `/w/a`. -/
def inFile : Target := ⟨.file "/w/a", some "/b"⟩

/-- The file `b` in the folder `/w/a#`. -/
def inFolder : Target := ⟨.file "/w/a#/b", none⟩

/-- A schema of one type. -/
def ofType (name : String) : Json := .object [("type", .str name)]

/-- A string stands in the one, an integer in the other. -/
def twoFiles : World := ⟨⟨[], [["w"], ["w", "a#"]], [
  (["w", "a"], Utf8.encode (Json.object [("b", ofType "string")]).render),
  (["w", "a#", "b"], Utf8.encode (ofType "integer").render)]⟩, []⟩

/-- A reference to each of the two. -/
def twoReferences : Document :=
  ⟨.object [("p", .object [("$ref", .str "file:///w/a#/b")]),
    ("q", .object [("$ref", .str "file:///w/a%23/b")])]⟩

theorem parse_inFile :
    Target.parse twoFiles.files apiFile "file:///w/a#/b" = .ok inFile := rfl

theorem parse_inFolder :
    Target.parse twoFiles.files apiFile "file:///w/a%23/b" = .ok inFolder := rfl

theorem arises_apiFile : apiFile.Arises := by
  have read : Source.parse twoFiles.files "/w/api.json" = .ok apiFile := rfl
  exact .location read

theorem arises_inFile : inFile.Arises := ⟨_, _, _, arises_apiFile, parse_inFile⟩

theorem arises_inFolder : inFolder.Arises := ⟨_, _, _, arises_apiFile, parse_inFolder⟩

end Sample

open Sample in
/-- A pointer into one file, and another file in a folder with a number sign at its end. -/
theorem Target.key_injective_iff_signed : inFile.Arises ∧ inFolder.Arises ∧
    ((inFile.key = inFolder.key →
        inFile.source.same inFolder.source = true ∧ inFile.pointer = inFolder.pointer) ↔
      ¬ inFile.Overlaps inFolder ∧ ¬ inFolder.Overlaps inFile) :=
  ⟨arises_inFile, arises_inFolder, key_injective_iff arises_inFile arises_inFolder⟩

open Sample in
/-- Two references lead to different places, which have one key, and both are replaced by what stands
in the first. -/
theorem Target.same_key_of_signed :
    Target.parse twoFiles.files apiFile "file:///w/a#/b" = .ok inFile ∧
    Target.parse twoFiles.files apiFile "file:///w/a%23/b" = .ok inFolder ∧
    inFile.key = inFolder.key ∧ inFile.source.same inFolder.source = false ∧
    inFile.pointer ≠ inFolder.pointer ∧
    (twoReferences.resolve twoFiles apiFile).toOption.map (·.root.render) =
      some (Json.object [("p", ofType "string"), ("q", ofType "string")]).render :=
  ⟨parse_inFile, parse_inFolder, by decide, by decide, by decide, by decide +kernel⟩

end ToolGateway
