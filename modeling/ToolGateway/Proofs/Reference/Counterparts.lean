import ToolGateway.Proofs.Reference.Keys
import ToolGateway.Proofs.SideBySide
import ToolGateway.Proofs.Url.Agreement
import ToolGateway.Source.Reading

/-!
# One description under two locations

A description is read from two pages whose URLs differ in user info, query or fragment only. What its
references lead to then differs in the same way: each source of the one run has a counterpart in the
other (`Twofold.Pair`). The two are shown alike, and a reference that cannot be joined to its base is
the only one whose failure shows more (`Source.Faulty`). Two sources are one in one run exactly when
their counterparts are (`Twofold.Parallel`), and then the keys of targets correspond one to one
(`Twofold.biUnique_keys`).
-/

namespace ToolGateway

/-! ### Sources that are shown alike -/

namespace Source

/-- The failure of a reference that cannot be joined to the URL of its page. -/
def unjoined (u : Url) (part : String) (fault : Url.Fault) : Error :=
  (page u).fault
    s!"Failed to resolve relative $ref '{part}' against base {u.render}: {fault.message}"

/-- Two sources that are shown alike: one file, or pages whose URLs agree. -/
inductive Alike : Source → Source → Prop
  | page {u v : Url} (h : u.Agrees v) : Alike (.page u) (.page v)
  | file (path : String) : Alike (.file path) (.file path)

/-- Whether the document part of a reference is read against the source of its document. -/
def isRelative (part : String) : Bool := !part.isEmpty && !isWeb part && !isFileUrl part

/-- The failures of the document part of a reference in documents from two sources: they are the
same, or it could not be joined to the URLs of two pages, and each failure shows its own. -/
inductive Faulty : Source → Source → String → Error → Error → Prop
  | same {s s' : Source} {part : String} (e : Error) : Faulty s s' part e e
  | unjoined {u v : Url} {part : String} {fault : Url.Fault} (relative : isRelative part = true)
      (first : u.join part = .error fault) (second : v.join part = .error fault) :
      Faulty (.page u) (.page v) part (unjoined u part fault) (unjoined v part fault)

namespace Alike

variable {s s' : Source}

theorem display_eq (h : s.Alike s') : s.display = s'.display := by
  cases h with
  | page agree => exact agree.redact_eq
  | file path => rfl

theorem fault_eq (h : s.Alike s') (message : String) : s.fault message = s'.fault message := by
  rw [fault, fault, h.display_eq]

/-- A reference leads from sources that are shown alike to such sources, or fails in both. -/
theorem relative (h : s.Alike s') (files : Files) (part : String) :
    Except.Related (Faulty s s' part) Alike (s.relative files part) (s'.relative files part) := by
  have refl : ∀ s : Source, s.Alike s := by
    intro s
    cases s with
    | page u => exact .page (.refl u)
    | file path => exact .file path
  unfold Source.relative
  split
  · exact .ok h
  · next given =>
    split
    · split
      · exact .ok (refl _)
      · rw [h.fault_eq]
        exact .error (.same _)
    · next web =>
      split
      · split
        · split
          · exact .ok (refl _)
          · rw [h.fault_eq]
            exact .error (.same _)
        · rw [h.fault_eq]
          exact .error (.same _)
      -- A relative part is the only one that is read against the base.
      · next file =>
        have relative : isRelative part = true := by simp [isRelative, given, web, file]
        cases h with
        | file path => exact .ok (refl _)
        | @page u v agree =>
          have joined := agree.join part
          have unjoined : ∀ fault, u.join part = .error fault → v.join part = .error fault →
              Faulty (.page u) (.page v) part (unjoined u part fault) (unjoined v part fault) :=
            fun _ first second => .unjoined relative first second
          dsimp only
          generalize u.join part = x, v.join part = y at joined unjoined ⊢
          cases joined with
          | ok agree => exact .ok (.page agree.withoutFragment)
          | error same =>
            subst same
            exact .error (unjoined _ rfl rfl)

end Alike

end Source

/-- A reference in documents from sources that are shown alike has targets in such sources, with one
pointer, or fails in both. -/
theorem Source.Alike.parse {s s' : Source} (h : s.Alike s') (files : Files) (reference : String) :
    Except.Related (Source.Faulty s s' (Target.parts reference).1)
      (fun t t' => t.source.Alike t'.source ∧ t.pointer = t'.pointer)
      (Target.parse files s reference) (Target.parse files s' reference) := by
  unfold Target.parse
  generalize Target.parts reference = parts
  obtain ⟨document, fragment⟩ := parts
  have pointer : Target.pointerOf s reference fragment = Target.pointerOf s' reference fragment := by
    unfold Target.pointerOf
    rw [h.fault_eq]
  dsimp only
  rw [pointer]
  refine (h.relative files document).bind fun t t' alike => ?_
  refine (Except.Related.refl .same (R := Eq) (fun _ => rfl) _).bind fun p p' same => ?_
  exact .ok ⟨alike, same⟩

/-- A reference that leads from a file to a page leads there from every file. -/
theorem Target.parse_of_page {files : Files} {path reference : String} {t : Target} {u : Url}
    (h : Target.parse files (.file path) reference = .ok t) (source : t.source = .page u)
    (other : String) :
    Target.parse files (.file other) reference = .ok t := by
  unfold Target.parse at h ⊢
  dsimp only at h ⊢
  obtain ⟨page, found, h⟩ := Except.ok_of_bind h
  obtain ⟨pointer, place, h⟩ := Except.ok_of_bind h
  cases h
  obtain rfl : page = .page u := source
  have found' : (Source.file other).relative files (parts reference).1 = .ok (.page u) := by
    unfold Source.relative at found ⊢
    split at found
    · cases found
    · next filled =>
      rw [if_neg filled]
      split at found
      · next web =>
        rw [if_pos web]
        split at found
        · exact found
        · cases found
      · split at found
        · split at found
          · split at found <;> cases found
          · cases found
        · cases found
  rw [found', pointerOf_of_ok place]
  rfl

/-! ### Counterparts -/

/-- A description with two sources that it may have been read from. -/
structure Twofold where
  world : World
  first : Source
  second : Source
  value : Json

namespace Twofold

/-- The document from a source as the first run has it: the description itself, or what is read
there. -/
inductive Held (p : Twofold) : Source → Json → Prop
  | given : p.Held p.first p.value
  | read {s : Source} {text : String} {v : Json} (other : s.same p.first = false)
      (there : s.text p.world = .ok text) (tree : Document.tree? text = some v) : p.Held s v

/-- A source of the first run and its counterpart in the second: the references of the same document
lead to them. -/
inductive Pair (p : Twofold) : Source → Source → Prop
  | roots : p.Pair p.first p.second
  | refers {s s' : Source} {v : Json} {reference : String} {t t' : Target} (h : p.Pair s s')
      (held : p.Held s v) (mem : reference ∈ v.references)
      (leads : Target.parse p.world.files s reference = .ok t)
      (leads' : Target.parse p.world.files s' reference = .ok t') : p.Pair t.source t'.source

/-- The two runs find the same under counterparts, and never take two pages for one when the other
run tells them apart. -/
structure Parallel (p : Twofold) : Prop where
  fetched : ∀ u v, p.Pair (.page u) (.page v) → p.world.fetch u = p.world.fetch v
  apart : ∀ s s' t t', p.Pair s s' → p.Pair t t' → s.same t = s'.same t'

/-- Two runs that are parallel, from sources that are shown alike. -/
structure Mirrored (p : Twofold) : Prop extends p.Parallel where
  alike : p.first.Alike p.second
  clean : p.first.Clean
  clean' : p.second.Clean
  settled : p.first.Settled
  settled' : p.second.Settled

variable {p : Twofold} {s s' : Source} {t t' u u' : Target} {v : Json}

theorem Mirrored.pair_spec (m : p.Mirrored) (h : p.Pair s s') :
    s.Alike s' ∧ s.Clean ∧ s'.Clean := by
  induction h with
  | roots => exact ⟨m.alike, m.clean, m.clean'⟩
  | @refers _ _ _ reference _ _ _ _ _ leads leads' ih =>
    obtain ⟨alike, clean, clean'⟩ := ih
    refine ⟨?_, (Target.parse_spec clean leads).1, (Target.parse_spec clean' leads').1⟩
    have both := alike.parse p.world.files reference
    rw [leads, leads'] at both
    cases both with
    | ok related => exact related.1

/-- What is read under counterparts is the same, and so is the failure. -/
theorem Mirrored.text_eq (m : p.Mirrored) (h : p.Pair s s') :
    s.text p.world = s'.text p.world := by
  have alike := (m.pair_spec h).1
  cases alike with
  | file path => rfl
  | page agree => rw [Source.text, Source.text, m.fetched _ _ h, agree.redact_eq]

/-- What both runs read from can be read from. -/
theorem Mirrored.settled_of_held (m : p.Mirrored) (h : p.Pair s s') (proper : s.Proper)
    (proper' : s'.Proper) (held : p.Held s v) : s.Settled ∧ s'.Settled := by
  have texts := m.text_eq h
  have roots := m.apart _ _ _ _ h .roots
  generalize first : p.first = root at roots
  cases held with
  | given =>
    rw [first, Source.same_iff.mpr rfl] at roots
    exact ⟨m.settled, proper'.settled_of_same m.settled' (Source.same_iff.mp roots.symm)⟩
  | read _ there _ =>
    exact ⟨proper.settled_of_text there, proper'.settled_of_text (texts ▸ there)⟩

theorem Mirrored.pair_proper (m : p.Mirrored) (h : p.Pair s s') : s.Proper ∧ s'.Proper := by
  induction h with
  | roots => exact ⟨m.settled.proper, m.settled'.proper⟩
  | refers before held _ leads leads' ih =>
    obtain ⟨settled, settled'⟩ := m.settled_of_held before ih.1 ih.2 held
    exact ⟨Target.proper_of_parse settled leads, Target.proper_of_parse settled' leads'⟩

/-- What both runs know: counterparts, or one file under a path that neither of them reads. -/
inductive Known (p : Twofold) : Source → Source → Prop
  | pair {s s' : Source} (h : p.Pair s s') : p.Known s s'
  | file (path : String) : p.Known (.file path) (.file path)

theorem Mirrored.known_spec (m : p.Mirrored) (h : p.Known s s') :
    s.Alike s' ∧ s.Clean ∧ s'.Clean := by
  cases h with
  | pair h => exact m.pair_spec h
  | file path => exact ⟨.file path, trivial, trivial⟩

/-- Two sources are one in one run exactly when what the other run knows instead is one. -/
theorem Mirrored.same_eq {u u' : Source} (m : p.Mirrored) (h : p.Known s s') (h' : p.Known u u') :
    s.same u = s'.same u' := by
  have alike := (m.known_spec h).1
  have alike' := (m.known_spec h').1
  cases alike with
  | file path =>
    cases alike' with
    | file path' => rfl
    | page agree => rfl
  | page agree =>
    cases alike' with
    | file path => rfl
    | page agree' =>
      cases h with
      | pair h =>
        cases h' with
        | pair h' => exact m.apart _ _ _ _ h h'

/-! ### Targets and their keys -/

/-- Targets in sources that both runs know, at one place. -/
def Targets (p : Twofold) (t t' : Target) : Prop :=
  p.Known t.source t'.source ∧ t.pointer = t'.pointer

/-- The keys of such targets. -/
def Keys (p : Twofold) (k k' : String) : Prop := ∃ t t', p.Targets t t' ∧ t.key = k ∧ t'.key = k'

theorem Targets.key (h : p.Targets t t') : p.Keys t.key t'.key := ⟨t, t', h, rfl, rfl⟩

/-- Targets on pages have one key exactly when they point to one place of one page. -/
theorem key_eq_iff_of_pages {x y : Url} (hx : (Source.page x).Clean) (hy : (Source.page y).Clean)
    (a b : Option String) : (⟨.page x, a⟩ : Target).key = (⟨.page y, b⟩ : Target).key ↔
      (Source.page x).same (.page y) = true ∧ a = b := by
  have signless : ∀ {z : Url}, (Source.page z).Clean → Text.Signless (Source.page z).key :=
    fun clean => Source.signless_key clean fun path h => by cases h
  constructor
  · intro h
    have parts := Target.parts_of_key (s := ⟨.page x, a⟩) (t := ⟨.page y, b⟩) (signless hx)
      (signless hy) h
    obtain ⟨source, pointer⟩ := parts
    exact ⟨Source.same_iff.mpr (Source.identity_eq_of_key source), pointer⟩
  · rintro ⟨same, rfl⟩
    have rendered : x.render = y.render := beq_iff_eq.mp same
    simp only [Target.key, Source.key, rendered]

theorem key_ne_of_page_of_file (x : Url) (path : String) (a b : Option String) :
    (⟨.page x, a⟩ : Target).key ≠ (⟨.file path, b⟩ : Target).key := by
  intro h
  have starts := congrArg (fun k : String => k.toList.head?) h
  cases a <;> cases b <;> simp [Target.key, Source.key] at starts

theorem Mirrored.key_eq_iff (m : p.Mirrored) (ht : p.Targets t t') (hu : p.Targets u u') :
    t.key = u.key ↔ t'.key = u'.key := by
  obtain ⟨source, pointer⟩ := t
  obtain ⟨source', pointer'⟩ := t'
  obtain ⟨other, place⟩ := u
  obtain ⟨other', place'⟩ := u'
  obtain ⟨known, rfl⟩ := ht
  obtain ⟨known', rfl⟩ := hu
  obtain ⟨alike, clean, clean'⟩ := m.known_spec known
  obtain ⟨alike', cleanOther, cleanOther'⟩ := m.known_spec known'
  cases alike with
  | file path =>
    cases alike' with
    | file path' => exact Iff.rfl
    | page agree =>
      exact iff_of_false (key_ne_of_page_of_file _ _ _ _).symm (key_ne_of_page_of_file _ _ _ _).symm
  | page agree =>
    cases alike' with
    | file path' => exact iff_of_false (key_ne_of_page_of_file _ _ _ _) (key_ne_of_page_of_file _ _ _ _)
    | page agree' =>
      rw [key_eq_iff_of_pages clean cleanOther, key_eq_iff_of_pages clean' cleanOther',
        m.same_eq known known']

theorem Mirrored.biUnique_keys (m : p.Mirrored) : Relator.BiUnique p.Keys := by
  constructor
  · rintro _ _ _ ⟨t, t', ht, rfl, rfl⟩ ⟨u, u', hu, rfl, same⟩
    exact (m.key_eq_iff ht hu).mpr same.symm
  · rintro _ _ _ ⟨t, t', ht, rfl, rfl⟩ ⟨u, u', hu, same, rfl⟩
    exact (m.key_eq_iff ht hu).mp same.symm

/-! ### References -/

/-- The failures of a reference in a document that both runs have. -/
def Faulty (p : Twofold) (e e' : Error) : Prop :=
  ∃ s s' v reference, p.Pair s s' ∧ p.Held s v ∧ reference ∈ v.references ∧
    Source.Faulty s s' (Target.parts reference).1 e e'

/-- Every relative reference in such a document can be joined to the URL of its page. -/
def Joins (p : Twofold) : Prop :=
  ∀ u v value reference, p.Pair (.page u) (.page v) → p.Held (.page u) value →
    reference ∈ value.references → Source.isRelative (Target.parts reference).1 = true →
    ∃ joined, u.join (Target.parts reference).1 = .ok joined

theorem Joins.eq_of_faulty (h : p.Joins) {e e' : Error} (faulty : p.Faulty e e') : e = e' := by
  obtain ⟨s, s', value, reference, pair, held, mem, faulty⟩ := faulty
  generalize same : (Target.parts reference).1 = part at faulty
  cases faulty with
  | same e => rfl
  | @unjoined u v _ fault relative first second =>
    rw [← same] at relative first
    obtain ⟨joined, found⟩ := h u v value reference pair held mem relative
    cases first.symm.trans found

/-- The targets of references correspond when each reference has such targets, or none in both. -/
theorem within_related {E : Error → Error → Prop} {R : Target → Target → Prop}
    (h : ∀ reference ∈ v.references, Except.Related E R
      (Target.parse p.world.files s reference) (Target.parse p.world.files s' reference)) :
    List.Forall₂ R (Target.within p.world.files s v) (Target.within p.world.files s' v) := by
  unfold Target.within
  generalize v.references = references at h
  induction references with
  | nil => exact .nil
  | cons reference rest ih =>
    obtain ⟨head, tail⟩ := List.forall_mem_cons.mp h
    rw [List.filterMap_cons, List.filterMap_cons]
    generalize Target.parse p.world.files s reference = x,
      Target.parse p.world.files s' reference = y at head ⊢
    cases head with
    | ok related => exact .cons related (ih tail)
    | error faulty => exact ih tail

/-- Each reference of a document that both runs have leads to counterparts, or fails in both. -/
theorem Mirrored.leads (m : p.Mirrored) (h : p.Pair s s') (held : p.Held s v) :
    ∀ reference ∈ v.references, Except.Related p.Faulty
      (fun t t' => p.Pair t.source t'.source ∧ t.pointer = t'.pointer)
      (Target.parse p.world.files s reference) (Target.parse p.world.files s' reference) := by
  intro reference mem
  have both := (m.pair_spec h).1.parse p.world.files reference
  have leads : ∀ t t', Target.parse p.world.files s reference = .ok t →
      Target.parse p.world.files s' reference = .ok t' → p.Pair t.source t'.source :=
    fun t t' leads leads' => .refers h held mem leads leads'
  generalize Target.parse p.world.files s reference = x,
    Target.parse p.world.files s' reference = y at both leads ⊢
  cases both with
  | ok related => exact .ok ⟨leads _ _ rfl rfl, related.2⟩
  | error faulty => exact .error ⟨s, s', v, reference, h, held, mem, faulty⟩

/-- Each of some references has targets that correspond, or fails in both runs: alike, or since it
cannot be joined. -/
def Refers (p : Twofold) (s s' : Source) (references : List String) : Prop :=
  ∀ reference ∈ references, Except.Related (fun e e' => e = e' ∨ p.Faulty e e') p.Targets
    (Target.parse p.world.files s reference) (Target.parse p.world.files s' reference)

theorem Mirrored.refers (m : p.Mirrored) (h : p.Pair s s') (held : p.Held s v) :
    p.Refers s s' v.references := fun reference mem =>
  (m.leads h held reference mem).mono (fun _ _ => Or.inr) fun _ _ => And.imp_left .pair

theorem Refers.subset {few many : List String} (h : p.Refers s s' many) (sub : few ⊆ many) :
    p.Refers s s' few :=
  fun reference mem => h reference (sub mem)

/-- The targets of the references in a value correspond. -/
theorem Refers.within (h : p.Refers s s' v.references) :
    List.Forall₂ p.Targets (Target.within p.world.files s v)
      (Target.within p.world.files s' v) := within_related h

/-- A reference in a file leads to a file, or to the page to which it leads from every file. -/
theorem Refers.file {path : String} {references : List String}
    (h : p.Refers (.file path) (.file path) references) (other : String) :
    p.Refers (.file other) (.file other) references := by
  intro reference mem
  have both := h reference mem
  cases parsed : Target.parse p.world.files (.file other) reference with
  | error e => exact .error (Or.inl rfl)
  | ok t =>
    refine .ok ⟨?_, rfl⟩
    cases source : t.source with
    | file q => exact .file q
    | page u =>
      rw [Target.parse_of_page parsed source path] at both
      cases both with
      | ok targets =>
        rw [← source]
        exact targets.1

end Twofold

end ToolGateway
