import ToolGateway.Proofs.Reference.Descent
import ToolGateway.Proofs.Reference.Loading

/-!
# Resolving a description

However its references lead back to themselves, resolving a description is one run that comes to an
end (`resolve_spec`). Below one entry of a component no target is put in twice, no component is
entered twice at one key, and in what results no object is a reference.
-/

namespace ToolGateway

namespace Json

/-! ### Values without references -/

/-- No object in the value is a reference. -/
def Resolved (v : Json) : Prop := ∀ text, text ∉ v.references

theorem resolved_obj_iff {members : List (String × Json)} :
    (Json.obj ⟨members⟩).Resolved ↔
      referenceOf? members = none ∧ ∀ m ∈ members, m.2.Resolved := by
  constructor
  · intro h
    refine ⟨?_, fun m hm text ht => h text (mem_references_obj_iff.mpr (Or.inr ⟨m, hm, ht⟩))⟩
    rw [Option.eq_none_iff_forall_ne_some]
    intro text ht
    exact h text (mem_references_obj_iff.mpr (Or.inl ht))
  · rintro ⟨none, all⟩ text ht
    rcases mem_references_obj_iff.mp ht with h | ⟨m, hm, h⟩
    · rw [none] at h
      cases h
    · exact all m hm text h

theorem resolved_arr_iff {items : List Json} :
    (Json.arr items).Resolved ↔ ∀ v ∈ items, v.Resolved := by
  constructor
  · intro h v hv text ht
    exact h text (mem_references_arr_iff.mpr ⟨v, hv, ht⟩)
  · intro h text ht
    obtain ⟨v, hv, ht⟩ := mem_references_arr_iff.mp ht
    exact h v hv text ht

theorem resolved_of_leaf {v : Json} (flat : ∀ items, v ≠ .arr items)
    (plain : ∀ members, v ≠ .obj members) : v.Resolved := by
  intro text ht
  cases v with
  | arr items => exact flat items rfl
  | obj members => exact plain members rfl
  | _ => simp [references] at ht

theorem resolved_nothing : Expander.nothing.Resolved := by
  refine resolved_obj_iff.mpr ⟨rfl, ?_⟩
  simp

/-- A member that is not `$ref` makes no reference of an object. -/
theorem resolved_insert {members : Members} {k : String} {v : Json}
    (h : (Json.obj members).Resolved) (hk : k ≠ "$ref") (hv : v.Resolved) :
    (Json.obj (members.insert k v)).Resolved := by
  obtain ⟨none, all⟩ := resolved_obj_iff.mp h
  refine resolved_obj_iff.mpr ⟨?_, ?_⟩
  · rw [referenceOf?, Dict.lookup_put_of_ne hk]
    exact none
  · intro m hm
    rcases Dict.mem_put hm with rfl | hm
    · exact hv
    · exact all m hm

/-! ### Values without references under `$ref` -/

/-- The member `$ref` of an object in the value is no reference itself. -/
def Tame (v : Json) : Prop :=
  ∀ members, (Json.obj ⟨members⟩).Within v → ∀ inner,
    Dict.lookup "$ref" members = some (.obj ⟨inner⟩) → referenceOf? inner = none

theorem Tame.of_within {v w : Json} (h : w.Tame) (within : v.Within w) : v.Tame := by
  intro members hm
  exact h members (hm.trans within)

theorem tame_obj_iff {members : List (String × Json)} :
    (Json.obj ⟨members⟩).Tame ↔
      (∀ inner, Dict.lookup "$ref" members = some (.obj ⟨inner⟩) → referenceOf? inner = none) ∧
        ∀ m ∈ members, m.2.Tame := by
  constructor
  · intro h
    exact ⟨h members .self, fun m hm => h.of_within (.member hm .self)⟩
  · rintro ⟨here, all⟩ other within
    cases within with
    | self => exact here
    | member hm within => exact all _ hm other within

theorem tame_arr_iff {items : List Json} : (Json.arr items).Tame ↔ ∀ v ∈ items, v.Tame := by
  constructor
  · intro h v hv
    exact h.of_within (.item hv .self)
  · intro h other within
    cases within with
    | item hv within => exact h _ hv other within

theorem tame_str (text : String) : (Json.str text).Tame := by
  rintro other ⟨⟩

end Json

namespace Expander

/-! ### What a run leaves behind -/

/-- All values in a task are tame, and the members of a target hold no reference. -/
def Tame : Task → Prop
  | .value _ v => v.Tame
  | .items _ items => ∀ v ∈ items, v.Tame
  | .members _ members => ∀ m ∈ members, m.2.Tame
  | .beside _ members target => (∀ m ∈ members, m.2.Tame) ∧ (Json.obj target).Resolved
  | .reference _ _ => True
  | .target _ _ => True

/-- The result of a task holds no reference. Of members it is said of their values. -/
def Clears : Task → Json → Prop
  | .members _ _, r => ∃ results, r = .obj ⟨results⟩ ∧ ∀ m ∈ results, m.2.Resolved
  | _, r => r.Resolved

/-- What is known holds no reference. -/
def Cleared (s : Expansion) : Prop := ∀ e ∈ s.done, e.2.Resolved

namespace Runs

variable {x : Expander} {source : Source} {s s' : Expansion} {r : Json} {a : Trace}

theorem exists_arr {items : List Json} (h : Runs x (.items source items) s r s' a) :
    ∃ results, r = .arr results := by
  cases h <;> exact ⟨_, rfl⟩

theorem exists_obj {members : List (String × Json)} (h : Runs x (.members source members) s r s' a) :
    ∃ results, r = .obj ⟨results⟩ := by
  cases h <;> exact ⟨_, rfl⟩

/-- Only a text or a reference becomes a text. -/
theorem ne_str {v : Json} (h : Runs x (.value source v) s r s' a) (hv : ∀ text, v ≠ .str text)
    (plain : ∀ members, v = .obj ⟨members⟩ → Json.referenceOf? members = none) :
    ∀ text, r ≠ .str text := by
  intro text
  cases h with
  | leaf _ _ => exact hv text
  | array run =>
    obtain ⟨results, rfl⟩ := run.exists_arr
    exact Json.noConfusion
  | object _ run =>
    obtain ⟨results, rfl⟩ := run.exists_obj
    exact Json.noConfusion
  | overlaid found _ _ | replaced found _ _ =>
    rw [plain _ rfl] at found
    cases found

/-- What stands under a key afterwards is what the value there became. -/
theorem lookup_members {members results : List (String × Json)}
    (h : Runs x (.members source members) s (.obj ⟨results⟩) s' a) {key : String}
    (hr : Dict.lookup key results = some r) :
    ∃ v, Dict.lookup key members = some v ∧ ∃ s s' a, Runs x (.value source v) s r s' a := by
  induction members generalizing results s a with
  | nil =>
    cases h
    cases hr
  | cons m members ih =>
    cases h with
    | member run rest =>
      rw [Dict.lookup] at hr ⊢
      split at hr
      · next hk =>
        cases hr
        rw [if_pos hk]
        exact ⟨_, rfl, _, _, _, run⟩
      · next hk =>
        rw [if_neg hk]
        exact ih rest hr

/-- An object that is no reference does not become one. -/
theorem plain_members {members results : List (String × Json)}
    (h : Runs x (.members source members) s (.obj ⟨results⟩) s' a)
    (plain : Json.referenceOf? members = none) (tame : (Json.obj ⟨members⟩).Tame) :
    Json.referenceOf? results = none := by
  rw [Option.eq_none_iff_forall_ne_some]
  intro text ht
  obtain ⟨r, hr, ht⟩ := Option.bind_eq_some_iff.mp ht
  obtain ⟨v, hv, _, _, _, run⟩ := h.lookup_members hr
  -- Under `$ref` stood neither a text nor a reference, so no text can stand there now.
  refine run.ne_str ?_ ?_ text ?_
  · rintro text rfl
    rw [Json.referenceOf?, hv] at plain
    cases plain
  · rintro inner rfl
    exact tame members .self inner hv
  · cases r with
    | str text =>
      cases ht
      rfl
    | _ => cases ht

/-- A run leaves no reference behind. -/
theorem clears (docs : ∀ d ∈ x.library.documents, d.2.Tame) {task : Task}
    (h : Runs x task s r s' a) (tame : Tame task) (hs : Cleared s) : Clears task r ∧ Cleared s' := by
  induction h with
  | leaf flat plain => exact ⟨Json.resolved_of_leaf flat plain, hs⟩
  | array _ ih => exact ih (Json.tame_arr_iff.mp tame) hs
  | object plain run ih =>
    obtain ⟨⟨results, rfl, all⟩, hs⟩ := ih (Json.tame_obj_iff.mp tame).2 hs
    exact ⟨Json.resolved_obj_iff.mpr ⟨run.plain_members plain tame, all⟩, hs⟩
  | overlaid _ _ _ ih ih' =>
    obtain ⟨target, hs⟩ := ih trivial hs
    exact ih' ⟨(Json.tame_obj_iff.mp tame).2, target⟩ hs
  | replaced _ _ _ ih => exact ih trivial hs
  | noItem => exact ⟨Json.resolved_arr_iff.mpr (by simp), hs⟩
  | item _ _ ih ih' =>
    obtain ⟨first, others⟩ := List.forall_mem_cons.mp tame
    obtain ⟨hr, hs⟩ := ih first hs
    obtain ⟨hrest, hs⟩ := ih' others hs
    refine ⟨Json.resolved_arr_iff.mpr ?_, hs⟩
    exact List.forall_mem_cons.mpr ⟨hr, Json.resolved_arr_iff.mp hrest⟩
  | noMember => exact ⟨⟨[], rfl, by simp⟩, hs⟩
  | member _ _ ih ih' =>
    obtain ⟨first, others⟩ := List.forall_mem_cons.mp tame
    obtain ⟨hr, hs⟩ := ih first hs
    obtain ⟨⟨_, same, hrest⟩, hs⟩ := ih' others hs
    cases same
    exact ⟨⟨_, rfl, List.forall_mem_cons.mpr ⟨hr, hrest⟩⟩, hs⟩
  | nothingBeside => exact ⟨tame.2, hs⟩
  | skipped _ ih => exact ih ⟨(List.forall_mem_cons.mp tame.1).2, tame.2⟩ hs
  | set other _ _ ih ih' =>
    obtain ⟨first, others⟩ := List.forall_mem_cons.mp tame.1
    obtain ⟨hr, hs⟩ := ih first hs
    exact ih' ⟨others, Json.resolved_insert tame.2 other hr⟩ hs
  | broken _ | cut _ _ | missing _ => exact ⟨Json.resolved_nothing, hs⟩
  | deeper _ _ _ ih => exact ih trivial hs
  -- What is known was cleared when its entry was left.
  | @known _ _ t r s _ step =>
    obtain ⟨-, found⟩ := taken step
    obtain ⟨before, after, same, -⟩ := List.lookup_eq_some_iff.mp found
    have mem : (t.key, r) ∈ s.done := by simp [same]
    exact ⟨hs _ mem, hs⟩
  | entered _ _ _ ih =>
    obtain ⟨hr, hs⟩ := ih trivial hs
    exact ⟨hr, List.forall_mem_cons.mpr ⟨hr, hs⟩⟩
  | found present _ ih =>
    obtain ⟨-, e, he, within⟩ := Library.find?_spec present
    exact ih ((docs e (Library.document?_spec he).1).of_within within) hs

end Runs

/-- What looks things up while the references of a description are expanded. -/
def ofLibrary (files : Files) (l : Library) (root : Source) (v : Json) : Expander :=
  ⟨files, l, (ReferenceGraph.ofLibrary files l root v).components⟩

section Library

variable {files : Files} {l : Library} {root : Source} {v : Json}

/-- The components are those of the graph of the library. Without number signs in paths a key tells
its target from all others, so the targets of a named target are next to it. -/
theorem charted_ofLibrary (hl : l.Settled files) (signless : l.Signless)
    (hd : l.document? root = some (root, v)) :
    (ofLibrary files l root v).Charted (ReferenceGraph.ofLibrary files l root v) := by
  obtain ⟨closed, -, named⟩ := ReferenceGraph.ofLibrary_spec files hl.readable hd
  refine ⟨rfl, closed, fun t ht hk => ?_⟩
  obtain ⟨u, hu, same, next⟩ := named t.key hk
  rw [next]
  show (l.targets files u).map Target.key = (l.targets files t).map Target.key
  rw [Library.targets, Library.targets, hl.find?_eq_of_key signless hu ht same]

theorem admits_ofLibrary (readable : l.Readable) (hd : l.document? root = some (root, v))
    (files : Files) : Admits (ofLibrary files l root v) (ReferenceGraph.ofLibrary files l root v) none root
      v.references := by
  obtain ⟨-, keys, -⟩ := ReferenceGraph.ofLibrary_spec files readable hd
  intro text htext t ht
  have mem : t ∈ Target.within files root v := Target.mem_within_iff.mpr ⟨text, htext, ht⟩
  refine ⟨⟨root, _, .own (Library.document?_spec hd).1, hd, mem⟩, keys t mem, ?_⟩
  rintro key ⟨⟩

end Library

end Expander

namespace Document

variable {files : Files} {location : String} {w : World} {root : Source} {d : Document} {l : Library}

/-- Resolving a description of a library is a run that ends with a value and a state. -/
structure Resolves (w : World) (root : Source) (d : Document) (l : Library) (r : Json)
    (s : Expansion) (a : Trace) : Prop where
  /-- The run comes to an end, and there is no other one. -/
  ends : ∀ r' s' a', (Expander.ofLibrary w.files l root d.root).Runs (.value root d.root) .start
    r' s' a' ↔ r' = r ∧ s' = s ∧ a' = a
  /-- What is answered is what the run ends with. -/
  answer : d.resolve w root = if s.faults.isEmpty then .ok ⟨r⟩
    else .error (.invalidDocument root.display s.faults)
  /-- Below one entry no key is put in twice, and all of them are of the component entered there. -/
  put_once : ∀ e ∈ a.scopes, e.2.Nodup ∧ ∀ k ∈ e.2,
    (Expander.ofLibrary w.files l root d.root).components.lookup k =
      (Expander.ofLibrary w.files l root d.root).components.lookup e.1
  /-- No component is entered twice at one key. -/
  entered_once : a.opened.Nodup
  /-- No object in the answer has a text under `$ref`. -/
  resolved : ∀ d', d.resolve w root = .ok d' → ∀ members,
    (Json.obj ⟨members⟩).Within d'.root → ∀ text, Dict.lookup "$ref" members ≠ some (.str text)

theorem resolve_eq (hl : Library.ofRoot w root d.root = .ok l) {r : Json} {s : Expansion}
    (he : (Expander.ofLibrary w.files l root d.root).expand
      ((ReferenceGraph.ofLibrary w.files l root d.root).edges.length + 1) root d.root .start =
        (r, s)) :
    d.resolve w root = if s.faults.isEmpty then .ok ⟨r⟩
      else .error (.invalidDocument root.display s.faults) := by
  rw [resolve, hl]
  unfold Expander.ofLibrary at he
  simp only [bind, Except.bind, he]
  rfl

/-- Resolving comes to an end, whatever the references of the documents lead to. -/
theorem resolve_spec (hroot : Source.parse files location = .ok root)
    (hl : Library.ofRoot w root d.root = .ok l) (signless : l.Signless)
    (tame : ∀ e ∈ l.documents, e.2.Tame) : ∃ r s a, Resolves w root d l r s a := by
  obtain ⟨settled, hd⟩ := Library.ofRoot_spec hroot hl
  have hx := Expander.charted_ofLibrary settled signless hd
  have fits := Expander.admits_ofLibrary settled.readable hd w.files
  have fuel : (ReferenceGraph.ofLibrary w.files l root d.root).keys.length ≤
      (ReferenceGraph.ofLibrary w.files l root d.root).edges.length + 1 := by
    rw [ReferenceGraph.keys, List.length_map]
    exact Nat.le_succ _
  obtain ⟨a, run⟩ := Expander.runs_expand hx fuel fits
  obtain ⟨r, s, he⟩ : ∃ r s, (Expander.ofLibrary w.files l root d.root).expand
      ((ReferenceGraph.ofLibrary w.files l root d.root).edges.length + 1) root d.root .start =
        (r, s) := ⟨_, _, rfl⟩
  rw [he] at run
  have answer := resolve_eq hl he
  have start : Expander.Runs.Kept (Expander.ofLibrary w.files l root d.root) .start := by
    rintro scope ⟨⟩
  refine ⟨r, s, a, ?_, answer, (run.recorded start).2, ?_, ?_⟩
  · intro r' s' a'
    constructor
    · exact fun other => other.deterministic run
    · rintro ⟨rfl, rfl, rfl⟩
      exact run
  · exact (run.opened hx (.outside rfl) fits).nodup
  · intro d' hd' members within text ht
    obtain ⟨cleared, -⟩ := run.clears tame (tame _ (Library.document?_spec hd).1)
      (by rintro e ⟨⟩)
    rw [answer] at hd'
    split at hd'
    · cases hd'
      apply cleared text
      refine Json.mem_references_iff.mpr ⟨members, within, ?_⟩
      rw [Json.referenceOf?, ht]
      rfl
    · cases hd'

/-! ### A description that leads back to itself -/

namespace Sample

/-- No files and no pages. -/
def nowhere : World := ⟨⟨[], [], []⟩, []⟩

/-- Where the description stands. -/
def api : Source := .file "api.json"

/-- A value that is a reference. -/
def ref (text : String) : Json := .object [("$ref", .str text)]

/-- `a` and `b` lead to each other, `b` to itself, to what stands in it and to the whole. -/
def cyclic : Document where
  root := .object [
    ("a", ref "#/b"),
    ("b", .object [
      ("a", .object [("$ref", .str "#/a"), ("title", .str "A")]),
      ("b", ref "#/b"),
      ("parts", .arr [ref "#/b/parts", ref "api.json"])])]

/-- It has no other document. -/
theorem exists_library : ∃ l, Library.ofRoot nowhere api cyclic.root = .ok l ∧
    (l.documents.length == 1) = true :=
  Except.exists_of_any (p := fun l : Library => l.documents.length == 1) (by decide +kernel)

theorem tame_cyclic : cyclic.root.Tame := by
  simp [cyclic, ref, Json.object, Json.tame_obj_iff, Json.tame_arr_iff, Json.tame_str, Dict.lookup]

end Sample

open Sample in
/-- The statement at a description whose references lead back to themselves. -/
theorem resolve_spec_cyclic :
    ∃ l, Source.parse nowhere.files "api.json" = .ok api ∧
      Library.ofRoot nowhere api cyclic.root = .ok l ∧ l.Signless ∧
      (∀ e ∈ l.documents, e.2.Tame) ∧ ∃ r s a, Resolves nowhere api cyclic l r s a := by
  have hroot : Source.parse nowhere.files "api.json" = .ok api := rfl
  obtain ⟨l, hl, one⟩ := exists_library
  obtain ⟨-, there⟩ := Library.ofRoot_spec hroot hl
  have mem := (Library.document?_spec there).1
  have only : ∀ e ∈ l.documents, e = (api, cyclic.root) := by
    obtain ⟨e, he⟩ := List.length_eq_one_iff.mp (beq_iff_eq.mp one)
    rw [he, List.mem_singleton] at mem
    rw [he, mem]
    intro e he
    exact List.mem_singleton.mp he
  have signless : l.Signless := by
    intro e he path hpath
    rw [only e he] at hpath
    cases hpath
    simp [Text.Signless]
  have tame : ∀ e ∈ l.documents, e.2.Tame := by
    intro e he
    rw [only e he]
    exact tame_cyclic
  exact ⟨l, hroot, hl, signless, tame, resolve_spec hroot hl signless tame⟩

open Sample in
example : (cyclic.resolve nowhere api).toOption.isSome = true := by decide +kernel

end Document

end ToolGateway
