import ToolGateway.Proofs.BaseUrl
import ToolGateway.Proofs.Json.Within
import ToolGateway.Proofs.Paths
import ToolGateway.Proofs.Url.Identity

/-!
# One document under several sources

Sources with one identity are sources of one document, whichever way they are written. What can be
read from two of them is the same (`text_eq`), and a reference in it names one document from both
(`Target.exists_within_of_identity`). Pages are served on the web only, and there a URL is told by
its printed form; for files the identity is that of the path (`SamePath`).

What is not the same is whether a document can be read: a slash after the name of a file makes its
path unreadable.
-/

namespace ToolGateway

namespace Source

variable {files : Files} {w : World} {s base other root : Source}

/-- A source that a reference can name. -/
def Proper : Source → Prop
  | page u => u.Proper ∧ u.fragment = none
  | file _ => True

/-- A source from which a document can be read. -/
def Settled : Source → Prop
  | page u => u.Settled ∧ u.fragment = none
  | file _ => True

theorem Settled.proper (h : s.Settled) : s.Proper := by
  cases s with
  | page u => exact ⟨h.1.proper, h.2⟩
  | file path => trivial

/-- The URL of a page that can be read is told by its printed form. -/
theorem Settled.url_eq {u v : Url} (hu : (page u).Settled) (hv : (page v).Settled)
    (same : u.render = v.render) : u = v :=
  hu.1.eq_of_render_eq hv.1 hu.2 hv.2 same

theorem settled_of_web {location : String} {u : Url} (web : isWeb location = true)
    (parsed : Url.parse location = .ok u) : (page u.withoutFragment).Settled := by
  have settled := Url.settled_of_parse parsed (BaseUrl.isWeb_scheme web parsed)
  exact ⟨settled.withFragment (by simp), rfl⟩

theorem settled_of_parse {location : String} (h : parse files location = .ok s) : s.Settled := by
  unfold parse at h
  split at h
  · next web =>
    split at h
    · next u parsed =>
      cases h
      exact settled_of_web web parsed
    · cases h
  · split at h
    · split at h
      · split at h
        · cases h
          trivial
        · cases h
      · cases h
    · cases h
      trivial

theorem proper_of_relative {part : String} (settled : base.Settled)
    (h : base.relative files part = .ok s) : s.Proper := by
  unfold relative at h
  split at h
  · cases h
    exact settled.proper
  · split at h
    · next web =>
      split at h
      · next u parsed =>
        cases h
        exact (settled_of_web web parsed).proper
      · cases h
    · split at h
      · split at h
        · split at h
          · cases h
            trivial
          · cases h
        · cases h
      · split at h
        · next u =>
          split at h
          · next joined read =>
            cases h
            have proper := Url.proper_of_join settled.1 read
            refine ⟨⟨proper.colon, fun web => ?_⟩, rfl⟩
            exact (proper.settled web).withFragment (by simp)
          · cases h
        · cases h
          trivial

/-! ### Reading -/

theorem isWeb_of_fetch {u : Url} {text : String} (h : w.fetch u = .ok text) :
    Url.IsWeb u.scheme := by
  unfold World.fetch at h
  split at h
  · next web => simpa [Url.IsWeb] using web
  · cases h

/-- What can be read is on the web, or it is a file. -/
theorem Proper.settled_of_text (h : s.Proper) {text : String} (read : s.text w = .ok text) :
    s.Settled := by
  cases s with
  | file path => trivial
  | page u => exact ⟨h.1.settled (isWeb_of_fetch (Except.ok_of_mapError read)), h.2⟩

theorem Proper.settled_of_same (h : s.Proper) (settled : root.Settled)
    (same : s.identity = root.identity) : s.Settled := by
  cases s with
  | file path => trivial
  | page u =>
    cases root with
    | file path => cases same
    | page v =>
      have printed : u.render = v.render := Sum.inl.inj same
      obtain ⟨rest, start⟩ : ∃ rest, v.render.toList = v.scheme.toList ++ ':' :: rest := by
        obtain ⟨host, hosted, -⟩ := settled.1.host
        obtain ⟨rest, text⟩ := settled.1.exists_toList_render settled.2 hosted
        rw [text, Url.startText, List.append_assoc]
        exact ⟨_, rfl⟩
      rw [← printed] at start
      exact ⟨h.1.settled (Url.isWeb_of_render h.1 settled.1.web start), h.2⟩

/-- What is read from a file does not depend on how its path is written. -/
theorem read_eq {f : Files} {p q text text' : String} (same : SamePath p q)
    (hp : f.read p = .ok text) (hq : f.read q = .ok text') : text = text' := by
  unfold Files.read at hp hq
  cases place : f.follow p with
  | error e =>
    rw [place] at hp
    cases hp
  | ok a =>
    cases place' : f.follow q with
    | error e =>
      rw [place'] at hq
      cases hq
    | ok b =>
      rw [place] at hp
      rw [place', ← same.follow_eq place place', hp] at hq
      exact Except.ok.inj hq

/-- What can be read from two sources of one document is the same. -/
theorem text_eq {text text' : String} (same : s.identity = other.identity)
    (settled : s.Settled) (settled' : other.Settled) (hs : s.text w = .ok text)
    (ho : other.text w = .ok text') : text = text' := by
  cases s with
  | page u =>
    cases other with
    | file path => cases same
    | page v =>
      rw [settled.url_eq settled' (Sum.inl.inj same), ho] at hs
      exact (Except.ok.inj hs).symm
  | file p =>
    cases other with
    | page v => cases same
    | file q =>
      exact read_eq (SamePath.of_plainPath (Sum.inr.inj same)) (Except.ok_of_mapError hs)
        (Except.ok_of_mapError ho)

/-! ### References -/

/-- A reference names one document from all sources of the document that it stands in. -/
theorem relative_of_identity {part : String} (settled : base.Settled) (settled' : other.Settled)
    (same : base.identity = other.identity) (h : base.relative files part = .ok s) :
    ∃ t, other.relative files part = .ok t ∧ s.identity = t.identity := by
  unfold relative at h ⊢
  split at h
  · next empty =>
    cases h
    rw [if_pos empty]
    exact ⟨other, rfl, same⟩
  · next filled =>
    rw [if_neg filled]
    split at h
    · next web =>
      rw [if_pos web]
      split at h
      · cases h
        exact ⟨_, rfl, rfl⟩
      · cases h
    · next aside =>
      rw [if_neg aside]
      split at h
      · next url =>
        rw [if_pos url]
        split at h
        · split at h
          · cases h
            exact ⟨_, rfl, rfl⟩
          · cases h
        · cases h
      · next path =>
        rw [if_neg path]
        cases base with
        | page u =>
          cases other with
          | file q => cases same
          | page u' =>
            rw [settled.url_eq settled' (Sum.inl.inj same)] at h
            exact ⟨s, h, rfl⟩
        | file p =>
          cases other with
          | page u' => cases same
          | file q =>
            cases h
            have parents := (SamePath.of_plainPath (Sum.inr.inj same)).parent
            exact ⟨_, rfl, congrArg Sum.inr (parents.canonical_joinPath part).plainPath_eq⟩

end Source

namespace Target

variable {files : Files} {base other : Source} {t : Target} {v : Json}

theorem mem_within_iff {v : Json} {t : Target} :
    t ∈ within files base v ↔ ∃ r ∈ v.references, parse files base r = .ok t := by
  rw [within, List.mem_filterMap]
  refine exists_congr fun r => and_congr_right fun _ => ?_
  cases parse files base r with
  | error e => simp [Except.toOption]
  | ok u => simp [Except.toOption]

theorem within_subset {v w : Json} (h : v.Within w) : within files base v ⊆ within files base w := by
  intro t ht
  obtain ⟨r, hr, hp⟩ := mem_within_iff.mp ht
  exact mem_within_iff.mpr ⟨r, Json.mem_references_of_within h hr, hp⟩

theorem proper_of_parse {reference : String} (settled : base.Settled)
    (h : parse files base reference = .ok t) : t.source.Proper := by
  obtain ⟨source, found, h⟩ := Except.ok_of_bind h
  obtain ⟨pointer, -, h⟩ := Except.ok_of_bind h
  cases h
  exact Source.proper_of_relative settled found

theorem pointerOf_of_ok {reference : String} {fragment pointer : Option String}
    (h : pointerOf base reference fragment = .ok pointer) :
    pointerOf other reference fragment = .ok pointer := by
  unfold pointerOf at h ⊢
  split at h
  · exact h
  · split at h
    · next empty =>
      rw [if_pos empty]
      exact h
    · next filled =>
      rw [if_neg filled]
      split at h
      · next slash =>
        rw [if_pos slash]
        exact h
      · cases h

theorem parse_of_identity {reference : String} (settled : base.Settled) (settled' : other.Settled)
    (same : base.identity = other.identity) (h : parse files base reference = .ok t) :
    ∃ u, parse files other reference = .ok u ∧ t.source.identity = u.source.identity ∧
      t.pointer = u.pointer := by
  unfold parse at h ⊢
  dsimp only at h ⊢
  obtain ⟨source, found, h⟩ := Except.ok_of_bind h
  obtain ⟨pointer, place, h⟩ := Except.ok_of_bind h
  cases h
  obtain ⟨source', found', one⟩ := Source.relative_of_identity settled settled' same found
  refine ⟨⟨source', pointer⟩, ?_, one, rfl⟩
  rw [found', pointerOf_of_ok place]
  rfl

/-- What a document names from one of its sources it names from all of them. -/
theorem exists_within_of_identity (settled : base.Settled) (settled' : other.Settled)
    (same : base.identity = other.identity) (h : t ∈ within files base v) :
    ∃ u ∈ within files other v, t.source.identity = u.source.identity ∧ t.pointer = u.pointer := by
  obtain ⟨reference, there, parsed⟩ := mem_within_iff.mp h
  obtain ⟨u, parsed', one, place⟩ := parse_of_identity settled settled' same parsed
  exact ⟨u, mem_within_iff.mpr ⟨reference, there, parsed'⟩, one, place⟩

end Target

end ToolGateway
