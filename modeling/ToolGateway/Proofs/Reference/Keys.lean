import ToolGateway.Proofs.Reference.Growth
import ToolGateway.Proofs.Source
import ToolGateway.Proofs.Text.Pieces

/-!
# Keys of targets

A key is a source's text, and a pointer's after a number sign. When no source of the targets has a
number sign, targets with one key point to the same place of the same document (`find?_eq_of_key`).
The only sources that can have one are paths of files.
-/

namespace ToolGateway

namespace Source

theorem page_key_ne_file_key (u : Url) (path : String) : (page u).key ≠ (file path).key := by
  intro h
  have := congrArg String.toList h
  simp [key] at this

/-- Sources with one key are one. -/
theorem identity_eq_of_key {s t : Source} (h : s.key = t.key) : s.identity = t.identity := by
  cases s with
  | page u =>
    cases t with
    | page v => exact congrArg Sum.inl ((String.append_right_inj _).mp h)
    | file q => exact absurd h (page_key_ne_file_key u q)
  | file p =>
    cases t with
    | page v => exact absurd h.symm (page_key_ne_file_key v p)
    | file q => exact congrArg (fun p => Sum.inr (plainPath p)) ((String.append_right_inj _).mp h)

/-- Sources that can be read are told by their keys. -/
theorem Settled.eq_of_key {s t : Source} (hs : s.Settled) (ht : t.Settled) (h : s.key = t.key) :
    s = t := by
  cases s with
  | page u =>
    cases t with
    | page v => exact congrArg page (hs.url_eq ht ((String.append_right_inj _).mp h))
    | file q => exact absurd h (page_key_ne_file_key u q)
  | file p =>
    cases t with
    | page v => exact absurd h.symm (page_key_ne_file_key v p)
    | file q => exact congrArg file ((String.append_right_inj _).mp h)

theorem signless_key {s : Source} (hs : s.Clean)
    (hp : ∀ path, s = .file path → Text.Signless path) : Text.Signless s.key := by
  cases s with
  | page u =>
    have hu : u.withoutFragment = u := by
      unfold Url.withoutFragment
      rw [← hs.2]
    have := hs.1.render
    rw [hu] at this
    exact Text.Signless.append (by simp [Text.Signless]) this
  | file path => exact Text.Signless.append (by simp [Text.Signless]) (hp path rfl)

end Source

namespace Target

/-- The first number sign of a key ends the text of the source. -/
theorem parts_of_key {s t : Target} (hs : Text.Signless s.source.key)
    (ht : Text.Signless t.source.key) (h : s.key = t.key) :
    s.source.key = t.source.key ∧ s.pointer = t.pointer := by
  have whole : ∀ (u : Target), Text.Signless u.source.key →
      Text.splitOnce? '#' u.key.toList =
        u.pointer.map fun p => (u.source.key.toList, p.toList) := by
    intro u hu
    unfold key
    cases u.pointer with
    | none => exact Text.splitOnce?_eq_none_iff.mpr hu
    | some p =>
      rw [String.toList_append, String.toList_append, List.append_assoc,
        Text.splitOnce?_append hu]
      simp [Text.splitOnce?_cons_self]
  -- Both keys are one text, and it is split at the first number sign only.
  have hsplit : s.pointer.map (fun p => (s.source.key.toList, p.toList)) =
      t.pointer.map fun p => (t.source.key.toList, p.toList) := by
    rw [← whole s hs, ← whole t ht, h]
  unfold key at h
  cases hsp : s.pointer with
  | none =>
    cases htp : t.pointer with
    | none =>
      rw [hsp, htp] at h
      exact ⟨h, rfl⟩
    | some q =>
      rw [hsp, htp] at hsplit
      cases hsplit
  | some p =>
    cases htp : t.pointer with
    | none =>
      rw [hsp, htp] at hsplit
      cases hsplit
    | some q =>
      rw [hsp, htp] at hsplit
      simp only [Option.map_some, Option.some.injEq, Prod.mk.injEq, String.toList_inj] at hsplit
      exact ⟨hsplit.1, congrArg some hsplit.2⟩

end Target

namespace Library

variable {l : Library} {files : Files} {s : Source}

/-- A library that holds the documents of all targets that it names. -/
structure Settled (l : Library) (files : Files) : Prop where
  clean : ∀ d ∈ l.documents, d.1.Clean
  readable : l.Readable
  loaded : ∀ t, l.Names files t → (l.document? t.source).isSome = true

/-- No path of a loaded file has a number sign. -/
def Signless (l : Library) : Prop :=
  ∀ d ∈ l.documents, ∀ path, d.1 = .file path → Text.Signless path

theorem document?_congr {s t : Source} (h : s.identity = t.identity) :
    l.document? s = l.document? t := by
  have : ∀ d : Source × Json, s.same d.1 = t.same d.1 := by
    intro d
    rw [Bool.eq_iff_iff, Source.same_iff, Source.same_iff, h]
  rw [document?, document?]
  congr 1
  funext d
  exact this d

theorem Reads.clean (h : l.Reads files s) (clean : ∀ d ∈ l.documents, d.1.Clean) : s.Clean := by
  induction h with
  | own mem => exact clean _ mem
  | named _ _ mem ih =>
    obtain ⟨r, -, hr⟩ := Target.mem_within_iff.mp mem
    exact (Target.parse_spec ih hr).1

theorem Settled.signless_key (hl : l.Settled files) (hs : l.Signless) {t : Target}
    (ht : l.Names files t) : Text.Signless t.source.key := by
  apply Source.signless_key (ht.reads.clean hl.clean)
  intro path hpath
  obtain ⟨e, he⟩ := Option.isSome_iff_exists.mp (hl.loaded t ht)
  obtain ⟨hmem, hsame⟩ := document?_spec he
  rw [hpath] at hsame
  cases hsource : e.1 with
  | page u =>
    rw [hsource] at hsame
    cases hsame
  | file q =>
    rw [hsource] at hsame
    exact Source.signless_of_same hsame (hs e hmem q hsource)

/-- The source of a document that is there is told by its key. -/
theorem Settled.source_eq (hl : l.Settled files) {s t : Target} (hns : l.Names files s)
    (hnt : l.Names files t) (h : s.source.key = t.source.key) : s.source = t.source := by
  obtain ⟨d, hd⟩ := Option.isSome_iff_exists.mp (hl.loaded s hns)
  obtain ⟨e, he⟩ := Option.isSome_iff_exists.mp (hl.loaded t hnt)
  exact (hns.reads.settled hl.readable hd).eq_of_key (hnt.reads.settled hl.readable he) h

/-- Targets with one key point to the same. -/
theorem Settled.find?_eq_of_key (hl : l.Settled files) (hs : l.Signless) {s t : Target}
    (hns : l.Names files s) (hnt : l.Names files t) (h : s.key = t.key) :
    l.find? s = l.find? t := by
  obtain ⟨hkey, hpointer⟩ :=
    Target.parts_of_key (hl.signless_key hs hns) (hl.signless_key hs hnt) h
  rw [find?, find?, hl.source_eq hns hnt hkey, hpointer]

end Library

end ToolGateway
