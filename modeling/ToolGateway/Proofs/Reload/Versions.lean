import ToolGateway.Proofs.Reading
import ToolGateway.Proofs.Reference.Flattening
import ToolGateway.Proofs.Schema.Filtering
import ToolGateway.Registry

/-!
# What happens to a version

Reloads go by the version of a description: it is compared as it is read, with that of the
description that was made of it before. Filters leave the version alone. References do as long as
the root and its `info` stay objects, for what is written beside a reference is set over its target;
but if one of them is a reference to something that is no object, nothing of it is left, and there
is no version any more. Then the text is never taken for known, however often it is read again
(`versioned_of_resolve`).
-/

namespace ToolGateway

/-- What is copied from an object that is no reference is an object. -/
theorem Copies.isObj_of_plain {files : Files} {l : Library} {source : Source}
    {members : Json.Members} {r : Json} (h : Copies files l (.value source (.obj members)) r)
    (plain : Json.referenceOf? members.entries = none) : r.isObj = true := by
  obtain ⟨members⟩ := members
  cases h with
  | leaf _ other => exact absurd rfl (other _)
  | object _ inner =>
    obtain ⟨_, rfl⟩ := inner.exists_obj_of_members
    rfl
  | overlaid found _ _ | replaced found _ _ =>
    rw [plain] at found
    cases found

namespace Document

/-! ### The version of a resolved description -/

/-- The root and its `info` are objects. -/
def HasInfo (d : Document) : Prop :=
  ∃ members info, d.root = .obj members ∧ members.get? "info" = some (.obj info)

theorem hasInfo_of_version {d : Document} {version : String} (h : d.version = some version) :
    d.HasInfo := by
  obtain ⟨members, info, hroot, hinfo, -⟩ := version_eq_some_iff.mp h
  exact ⟨members, info, hroot, hinfo⟩

variable {files : Files} {location : String} {w : World} {root : Source} {d d' : Document}
  {l : Library} {version : String}

/-- A copy of a description has its version, or its root or its `info` is no object. -/
theorem version_of_copies (copies : Copies files l (.value root d.root) d'.root)
    (distinct : d.root.Distinct) (known : d.version = some version) :
    d'.version = some version ∨ d'.root.isObj = false ∨
      ∃ v, d'.root.get? "info" = some v ∧ v.isObj = false := by
  obtain ⟨members, info, hroot, hinfo, hversion⟩ := version_eq_some_iff.mp known
  rw [hroot] at copies distinct
  rcases copies.get?_obj distinct (by decide) hinfo with none | ⟨results, v, hroot', hv, copies⟩
  · exact Or.inr (Or.inl (Json.isObj_eq_false_iff.mpr none))
  have there : d'.root.get? "info" = some v := by rwa [hroot']
  rcases copies.get?_obj (distinct.get? hinfo) (by decide) hversion with
    none | ⟨info', v', rfl, hv', copies⟩
  · exact Or.inr (Or.inr ⟨v, there, Json.isObj_eq_false_iff.mpr none⟩)
  · cases copies.of_str
    exact Or.inl (version_eq_some_iff.mpr ⟨results, info', hroot', hv, hv'⟩)

theorem not_hasInfo (h : d.root.isObj = false ∨ ∃ v, d.root.get? "info" = some v ∧
    v.isObj = false) : ¬d.HasInfo := by
  rintro ⟨members, info, hroot, hinfo⟩
  rcases h with none | ⟨v, hv, none⟩
  · exact Json.isObj_eq_false_iff.mp none _ hroot
  · rw [hroot] at hv
    cases hinfo.symm.trans hv
    cases none

/-- Without an object for the root and one for `info` there is no version. -/
theorem version_eq_none (h : d.root.isObj = false ∨ ∃ v, d.root.get? "info" = some v ∧
    v.isObj = false) : d.version = none := by
  cases known : d.version with
  | none => rfl
  | some version => exact absurd (hasInfo_of_version known) (not_hasInfo h)

theorem version_resolve_iff (h : d.resolve w root = .ok d') (distinct : d.root.Distinct)
    (known : d.version = some version) : d'.version = some version ↔ d'.HasInfo := by
  refine ⟨hasInfo_of_version, fun info => ?_⟩
  obtain ⟨l, -, copies⟩ := copies_resolve h
  rcases version_of_copies copies distinct known with same | flat
  · exact same
  · exact absurd info (not_hasInfo flat)

/-- The root of a resolved description, and each of its members that is not lost with it, is an
object unless the references there lead to none. -/
theorem isObj_resolve (hroot : Source.parse files location = .ok root)
    (hl : Library.ofRoot w root d.root = .ok l) (signless : l.Signless)
    (h : d.resolve w root = .ok d') (distinct : d.root.Distinct) {members : Json.Members}
    (object : d.root = .obj members) {key : String} (other : key ≠ "$ref") {v : Json}
    (there : members.get? key = some v) :
    (d'.root.isObj = false ↔ ∃ keys, Flattens w.files l (.value root d.root) keys) ∧
      (d'.root.isObj = false ∨ ∃ v', d'.root.get? key = some v' ∧
        (v'.isObj = false ↔ ∃ keys, Flattens w.files l (.value root v) keys)) := by
  obtain ⟨_⟩ := d
  cases object
  obtain ⟨settled, -⟩ := Library.ofRoot_spec hroot hl
  have hk := Expander.keyed_ofLibrary settled signless root (.obj members)
  obtain ⟨⟨entry, path, -, follows⟩, r, s, a, -, run, answer⟩ := exists_run hroot hl signless
  have all : (Task.value root (.obj members)).All w.files (l.Names w.files) :=
    fun text htext t good => (follows text htext t good).1.1
  have consistent : Expander.Consistent (Expander.ofLibrary w.files l root (.obj members)) .start :=
    fun e he => by cases he
  obtain ⟨-, -, whole⟩ := run.flattens_outside hk all consistent rfl
  rw [h] at answer
  split at answer
  · cases answer
    exact ⟨whole, run.flattens_within hk all consistent rfl distinct.keys other there⟩
  · cases answer

/-- A version is lost exactly when the references at the root or at `info` lead to what is no
object. -/
theorem version_resolve_eq_none_iff (hroot : Source.parse files location = .ok root)
    (hl : Library.ofRoot w root d.root = .ok l) (signless : l.Signless)
    (h : d.resolve w root = .ok d') (distinct : d.root.Distinct)
    (known : d.version = some version) :
    d'.version = none ↔ (∃ keys, Flattens w.files l (.value root d.root) keys) ∨
      ∃ info, d.root.get? "info" = some info ∧
        ∃ keys, Flattens w.files l (.value root info) keys := by
  obtain ⟨members, info, object, hinfo, -⟩ := version_eq_some_iff.mp known
  obtain ⟨whole, part⟩ := isObj_resolve hroot hl signless h distinct object (by decide) hinfo
  have there : d.root.get? "info" = some (.obj info) := by rwa [object]
  constructor
  · intro lost
    obtain ⟨l', hl', copies⟩ := copies_resolve h
    rcases version_of_copies copies distinct known with same | none | ⟨v, hv, none⟩
    · cases lost.symm.trans same
    · exact Or.inl (whole.mp none)
    · rcases part with outer | ⟨v', hv', ends⟩
      · exact Or.inl (whole.mp outer)
      · cases hv.symm.trans hv'
        exact Or.inr ⟨_, there, ends.mp none⟩
  · rintro (leads | ⟨v, hv, leads⟩)
    · exact version_eq_none (Or.inl (whole.mpr leads))
    · cases there.symm.trans hv
      rcases part with outer | ⟨v', hv', ends⟩
      · exact version_eq_none (Or.inl outer)
      · exact version_eq_none (Or.inr ⟨v', hv', ends.mpr leads⟩)

/-- Where no reference stands in place of the root or of `info`, the version is kept. -/
theorem version_resolve_of_plain (h : d.resolve w root = .ok d') (distinct : d.root.Distinct)
    (known : d.version = some version) (plain : d.root.getStr? "$ref" = none)
    (inner : (d.within "info" "$ref").bind Json.str? = none) : d'.version = some version := by
  rw [version_resolve_iff h distinct known]
  obtain ⟨l, -, copies⟩ := copies_resolve h
  obtain ⟨members, info, object, hinfo, -⟩ := version_eq_some_iff.mp known
  have inner : Json.referenceOf? info.entries = none := by
    rw [within, object] at inner
    simp only [Json.get?, hinfo, Option.bind_some] at inner
    exact inner
  rw [object] at copies distinct plain
  obtain ⟨results, whole⟩ := Json.isObj_eq_true_iff.mp (copies.isObj_of_plain plain)
  rcases copies.get?_obj distinct (by decide) hinfo with none | ⟨_, v, same, hv, part⟩
  · exact absurd whole (none _)
  obtain ⟨info', rfl⟩ := Json.isObj_eq_true_iff.mp (part.isObj_of_plain inner)
  exact ⟨_, info', same, hv⟩

end Document

/-! ### What a reload makes of it -/

namespace Registry

/-- A world offers a text to a registry, and the check of its digest accepts it. -/
def Offers (w : World) (r : Registry) (text : String) : Prop :=
  ∃ source, Source.parse w.files r.location = .ok source ∧ source.text w = .ok text ∧
    r.check.run r.location text = .ok ()

theorem Offers.raw {w : World} {r : Registry} {text : String} (h : Offers w r text) :
    r.raw w = Document.parse r.location text := by
  obtain ⟨source, found, read, checked⟩ := h
  simp only [Registry.raw, Document.read, found, read, checked, bind, Except.bind]

/-- A description is loaded from a text that the world offers. -/
theorem exists_of_load {w : World} {location : String} {check : DigestCheck} {switches : Dict Bool}
    {r : Registry} (h : load w location check switches = .ok r) :
    ∃ text raw filtered, Source.parse w.files location = .ok r.root ∧
      Document.parse location text = .ok raw ∧ Filter.apply switches raw = .ok filtered ∧
      filtered.resolve w r.root = .ok r.document ∧ r.location = location ∧ r.Offers w text := by
  obtain ⟨root, hroot, h⟩ := Except.ok_of_bind h
  obtain ⟨raw, read, h⟩ := Except.ok_of_bind h
  obtain ⟨d, finished, h⟩ := Except.ok_of_bind h
  cases h
  obtain ⟨source, found, read⟩ := Except.ok_of_bind read
  obtain ⟨text, fetched, read⟩ := Except.ok_of_bind read
  obtain ⟨_, checked, parsed⟩ := Except.ok_of_bind read
  obtain ⟨filtered, applied, resolved⟩ := Except.ok_of_bind finished
  exact ⟨text, raw, filtered, hroot, parsed, applied, resolved, rfl, source, found, fetched,
    checked⟩

/-- A text is taken for known exactly when the version that is known is the one it has. -/
theorem reloadIfUpdated_eq_iff {w : World} {r : Registry} {raw : Document}
    (read : r.raw w = .ok raw) {version : String} (there : raw.version = some version)
    (known : Option String) :
    r.reloadIfUpdated w known = (.ok false, r) ↔ known = raw.version := by
  simp only [reloadIfUpdated, read]
  split
  · next gate =>
    rw [Bool.and_eq_true, beq_iff_eq] at gate
    exact iff_of_true rfl gate.2.symm
  · next gate =>
    refine iff_of_false ?_ ?_
    · intro same
      cases done : finish w r.root r.filters raw <;> rw [done] at same <;> cases same
    · rintro rfl
      exact gate (by simp [there])

end Registry

/-! ### The main statement -/

/-- What becomes of the version of a description that is read from a text at a location. -/
structure Document.Versioned (w : World) (root : Source) (location text : String)
    (raw filtered d : Document) : Prop where
  /-- There is a version as the description is read. -/
  read : ∃ version, raw.version = some version
  /-- In the end it is the same, or there is none. -/
  same : d.version = raw.version ∨ d.version = none
  /-- It is the same exactly when the root and its `info` are objects still. -/
  kept : d.version = raw.version ↔ d.HasInfo
  /-- It is the same when neither of them is a reference. -/
  plain : raw.root.getStr? "$ref" = none → (raw.within "info" "$ref").bind Json.str? = none →
    d.version = raw.version
  /-- Where keys tell targets apart, it is gone exactly when the references at one of them lead to
  what is no object. -/
  lost : ∀ l, Library.ofRoot w root filtered.root = .ok l → l.Signless →
    (d.version = none ↔ (∃ keys, Flattens w.files l (.value root filtered.root) keys) ∨
      ∃ info, filtered.root.get? "info" = some info ∧
        ∃ keys, Flattens w.files l (.value root info) keys)
  /-- The same text is taken for known by a registry that holds the description, and nothing is done
  about it, exactly when the version is the same. -/
  gate : ∀ (r : Registry) (now : World), r.location = location → r.document = d →
    r.Offers now text → (r.reloadIfUpdated now r.version = (.ok false, r) ↔
      d.version = raw.version)

/-- A description that is read, filtered and resolved has its version, unless a reference to what is
no object stands in place of the root or of `info`; and the version alone decides whether its text
is taken for known. -/
theorem versioned_of_resolve {files : Files} {w : World} {root : Source} {location text : String}
    {switches : Dict Bool} {raw filtered d : Document}
    (hroot : Source.parse files location = .ok root)
    (parsed : Document.parse location text = .ok raw)
    (applied : Filter.apply switches raw = .ok filtered)
    (resolved : filtered.resolve w root = .ok d) :
    Document.Versioned w root location text raw filtered d := by
  obtain ⟨distinct, version, known⟩ := Document.parse_spec parsed
  have distinct := Filter.distinct_apply distinct applied
  have aside := Filter.aside_apply applied
  have known' : filtered.version = some version := aside.version.trans known
  refine ⟨⟨version, known⟩, ?_, ?_, ?_, ?_, ?_⟩
  · rw [known]
    exact Document.version_resolve resolved distinct known'
  · rw [known]
    exact Document.version_resolve_iff resolved distinct known'
  · intro plain inner
    rw [known]
    refine Document.version_resolve_of_plain resolved distinct known' ?_ ?_
    · rw [Json.getStr?, aside "$ref" (by decide) (by decide)]
      exact plain
    · rw [Document.within, aside "info" (by decide) (by decide)]
      exact inner
  · intro l hl signless
    exact Document.version_resolve_eq_none_iff hroot hl signless resolved distinct known'
  · rintro r now rfl rfl offers
    exact Registry.reloadIfUpdated_eq_iff (offers.raw.trans parsed) known r.version

namespace Registry.Sample

/-- A description whose `info` is a reference to a value, with a version beside it. -/
def referring (v : Json) : Json :=
  .object [("openapi", .str "3.0.3"),
    ("info", .object [("$ref", .str "#/x-info"), ("version", .str "1")]),
    ("paths", .object []), ("x-info", v)]

/-- A world that holds a description and nothing else. -/
def holding (v : Json) : World := ⟨⟨[], [], [(["spec"], Utf8.encode v.render)]⟩, []⟩

/-- A description with a title for its `info` elsewhere. -/
def titled : Json := referring (.object [("title", .str "Pets")])

/-- A description whose `info` is a text elsewhere. -/
def lost : Json := referring (.str "Pets")

/-- Whether a description of version 1 is kept without a version, and stored anew when it is read
again. -/
def forgets (w : World) (r : Registry) : Bool :=
  (r.raw w).toOption.any (·.version == some "1") && r.version.isNone &&
    (r.reloadIfUpdated w r.version).1.toOption == some true

theorem exists_titled : ∃ r, load (holding titled) "/spec" .none .empty = .ok r ∧
    (r.version == some "1") = true :=
  Except.exists_of_any (p := fun r : Registry => r.version == some "1") (by decide +kernel)

theorem exists_forgets : ∃ r, load (holding lost) "/spec" .none .empty = .ok r ∧
    forgets (holding lost) r = true :=
  Except.exists_of_any (p := forgets (holding lost)) (by decide +kernel)

end Registry.Sample

open Registry.Sample in
/-- The statement at a description whose `info` is a reference to an object: it has its version
still, so its text is taken for known. -/
theorem versioned_of_resolve_titled : ∃ r text raw filtered,
    Registry.load (holding titled) "/spec" .none .empty = .ok r ∧
    Source.parse (holding titled).files "/spec" = .ok r.root ∧
    Document.parse "/spec" text = .ok raw ∧ Filter.apply .empty raw = .ok filtered ∧
    filtered.resolve (holding titled) r.root = .ok r.document ∧
    Document.Versioned (holding titled) r.root "/spec" text raw filtered r.document ∧
    r.reloadIfUpdated (holding titled) r.version = (.ok false, r) := by
  obtain ⟨r, loaded, version⟩ := exists_titled
  obtain ⟨text, raw, filtered, hroot, parsed, applied, resolved, here, offers⟩ :=
    Registry.exists_of_load loaded
  have versioned := versioned_of_resolve hroot parsed applied resolved
  have kept : r.document.version = raw.version := by
    refine versioned.same.resolve_right fun none => ?_
    rw [Registry.version, none] at version
    cases version
  exact ⟨r, text, raw, filtered, loaded, hroot, parsed, applied, resolved, versioned,
    (versioned.gate r _ here rfl offers).mpr kept⟩

open Registry.Sample in
/-- A description whose `info` is a reference to a text has version 1 as it is read and none in the
end, so the same text is stored anew when it is read again. -/
theorem reload_of_lost_version : ∃ r raw,
    Registry.load (holding lost) "/spec" .none .empty = .ok r ∧
    r.raw (holding lost) = .ok raw ∧ raw.version = some "1" ∧ r.version = none ∧
    (r.reloadIfUpdated (holding lost) r.version).1.toOption = some true := by
  obtain ⟨r, loaded, forgets⟩ := exists_forgets
  simp only [Registry.Sample.forgets, Bool.and_eq_true, Option.isNone_iff_eq_none,
    beq_iff_eq] at forgets
  obtain ⟨⟨known, none⟩, stored⟩ := forgets
  obtain ⟨raw, read, version⟩ := Except.exists_of_any known
  exact ⟨r, raw, loaded, read, beq_iff_eq.mp version, none, stored⟩

end ToolGateway
