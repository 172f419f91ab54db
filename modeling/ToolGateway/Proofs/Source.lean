import Mathlib.Data.List.Basic
import ToolGateway.Proofs.Url.Signless
import ToolGateway.Reference.Target

/-!
# Sources of references

The source that a reference names is that of the document it stands in, or a new one: a page whose
URL has no fragment, or the one path of a file that exists (`Target.parse_spec`). Two sources are one
exactly when they have the same identity, and the number sign never hides in what does not count
about a path (`signless_of_same`).
-/

namespace ToolGateway

namespace Source

/-! ### What sources are made of -/

/-- The URL of a page has no fragment and no number sign. -/
def Clean : Source → Prop
  | .page u => u.Signless ∧ u.fragment = none
  | .file _ => True

/-- The path of a file is the one path of what some path leads to. -/
def Canonical (files : Files) : Source → Prop
  | .page _ => True
  | .file path => ∃ other, path = files.canonical other

theorem clean_page {u : Url} (h : u.Signless) : (page u.withoutFragment).Clean :=
  ⟨⟨h.scheme, h.username, h.password, h.host, h.path, h.query⟩, rfl⟩

theorem canonical_ofPath (files : Files) (path : String) : (ofPath files path).Canonical files :=
  ⟨path, rfl⟩

theorem parse_spec {files : Files} {location : String} {s : Source}
    (h : parse files location = .ok s) : s.Clean ∧ s.Canonical files := by
  unfold parse at h
  split at h
  · split at h
    · next u hu =>
      cases h
      exact ⟨clean_page (.of_parse hu), trivial⟩
    · cases h
  · split at h
    · split at h
      · split at h
        · cases h
          exact ⟨trivial, canonical_ofPath _ _⟩
        · cases h
      · cases h
    · cases h
      exact ⟨trivial, canonical_ofPath _ _⟩

theorem relative_spec {files : Files} {base s : Source} {part : String} (hb : base.Clean)
    (h : base.relative files part = .ok s) : s.Clean ∧ (s = base ∨ s.Canonical files) := by
  unfold relative at h
  split at h
  · cases h
    exact ⟨hb, Or.inl rfl⟩
  · split at h
    · split at h
      · next u hu =>
        cases h
        exact ⟨clean_page (.of_parse hu), Or.inr trivial⟩
      · cases h
    · split at h
      · split at h
        · split at h
          · cases h
            exact ⟨trivial, Or.inr (canonical_ofPath _ _)⟩
          · cases h
        · cases h
      · split at h
        · split at h
          · next joined hj =>
            cases h
            exact ⟨clean_page (.of_join hb.1 hj), Or.inr trivial⟩
          · cases h
        · cases h
          exact ⟨trivial, Or.inr (canonical_ofPath _ _)⟩

end Source

theorem Target.parse_spec {files : Files} {base : Source} {reference : String} {t : Target}
    (hb : base.Clean) (h : Target.parse files base reference = .ok t) :
    t.source.Clean ∧ (t.source = base ∨ t.source.Canonical files) := by
  unfold Target.parse at h
  obtain ⟨source, hs, h⟩ := Except.ok_of_bind h
  obtain ⟨pointer, -, h⟩ := Except.ok_of_bind h
  cases h
  exact Source.relative_spec hb hs

namespace Source

/-! ### Identity -/

/-- What counts about a source: the printed URL of a page, the plain form of a path. -/
def identity : Source → String ⊕ String
  | .page u => .inl u.render
  | .file path => .inr (plainPath path)

theorem same_iff {s t : Source} : s.same t = true ↔ s.identity = t.identity := by
  cases s <;> cases t <;> simp [same, identity]

/-! ### Number signs in paths -/

theorem exists_mem_pieces {p : Char → Bool} {c : Char} (hc : p c = false) {cs : List Char}
    (h : c ∈ cs) : ∃ piece ∈ Text.pieces p cs, c ∈ piece := by
  induction cs with
  | nil => cases h
  | cons d cs ih =>
    rw [Text.pieces]
    rcases List.mem_cons.mp h with rfl | h
    · rw [hc, if_neg Bool.false_ne_true]
      split <;> simp
    · obtain ⟨piece, hp, hcp⟩ := ih h
      split
      · exact ⟨piece, List.mem_cons_of_mem _ hp, hcp⟩
      · split
        · next heq =>
          rw [heq] at hp
          cases hp
        · next first rest heq =>
          rw [heq] at hp
          rcases List.mem_cons.mp hp with rfl | hp
          · exact ⟨_, List.mem_cons_self, List.mem_cons_of_mem d hcp⟩
          · exact ⟨piece, List.mem_cons_of_mem _ hp, hcp⟩

theorem subset_of_mem_pieces {p : Char → Bool} {cs piece : List Char}
    (h : piece ∈ Text.pieces p cs) : piece ⊆ cs := by
  induction cs generalizing piece with
  | nil =>
    rw [List.mem_singleton.mp h]
    exact List.nil_subset _
  | cons d cs ih =>
    rw [Text.pieces] at h
    split at h
    · rcases List.mem_cons.mp h with rfl | h
      · exact List.nil_subset _
      · exact List.subset_cons_of_subset d (ih h)
    · split at h
      · rw [List.mem_singleton.mp h]
        exact List.cons_subset_cons d (List.nil_subset _)
      · next first rest heq =>
        rw [heq] at ih
        rcases List.mem_cons.mp h with rfl | h
        · exact List.cons_subset_cons d (ih List.mem_cons_self)
        · exact List.subset_cons_of_subset d (ih (List.mem_cons_of_mem _ h))

theorem mem_significant {path name : String} (h : name ∈ Files.names path) (hne : name ≠ "")
    (hdot : name ≠ ".") : name ∈ significant path := by
  unfold significant
  split
  · next first rest heq =>
    rw [heq] at h
    rcases List.mem_cons.mp h with rfl | h
    · simp [hne]
    · simp [h, hne, hdot]
  · next heq =>
    rw [heq] at h
    cases h

theorem significant_subset {path : String} : significant path ⊆ Files.names path := by
  intro name h
  unfold significant at h
  split at h
  · next first rest heq =>
    rw [heq]
    rcases List.mem_append.mp h with h | h
    · split at h
      · cases h
      · rw [List.mem_singleton.mp h]
        exact List.mem_cons_self
    · exact List.mem_cons_of_mem _ (List.mem_filter.mp h).1
  · cases h

/-- A number sign stands in a path exactly when it stands in its plain form. -/
theorem signless_plainPath_iff {path : String} :
    Text.Signless (plainPath path) ↔ Text.Signless path := by
  constructor
  · intro h hc
    obtain ⟨piece, hp, hcp⟩ := exists_mem_pieces (p := (· == '/')) (by decide) hc
    have ne_of_toList : ∀ s : String, '#' ∉ s.toList → String.ofList piece ≠ s := by
      rintro s hs rfl
      rw [String.toList_ofList] at hs
      exact hs hcp
    -- A name with a number sign is neither empty nor a dot, so the plain form keeps it.
    have hsig : String.ofList piece ∈ significant path :=
      mem_significant (List.mem_map_of_mem hp) (ne_of_toList _ (by decide))
        (ne_of_toList _ (by decide))
    have := h.of_append_right.of_intercalate _ hsig
    rw [Text.Signless, String.toList_ofList] at this
    exact this hcp
  · intro h
    unfold plainPath
    apply Text.Signless.append
    · split <;> simp [Text.Signless]
    · apply Text.Signless.intercalate (by simp [Text.Signless])
      intro name hn hc
      obtain ⟨piece, hp, rfl⟩ := List.mem_map.mp (significant_subset hn)
      rw [String.toList_ofList] at hc
      exact h (subset_of_mem_pieces hp hc)

theorem signless_of_same {p q : String} (h : (file p).same (file q) = true)
    (hq : Text.Signless q) : Text.Signless p := by
  have := same_iff.mp h
  simp only [identity, Sum.inr.injEq] at this
  rw [← signless_plainPath_iff, this]
  exact signless_plainPath_iff.mpr hq

end Source

end ToolGateway
