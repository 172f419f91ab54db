import ToolGateway.Json.Printer
import ToolGateway.Proofs.Reference.Mirroring
import ToolGateway.Registry

/-!
# What errors show of a location

A registry reads its description from a location, which can hold a password or a token. Two locations
that differ in user info, query or fragment only, and lead to the same texts, make two runs that end
alike. Their errors are the same in every stage but two (`Registry.Reports`): a text that is refused
is put down to the location as it was given, and a relative reference that cannot be joined shows the
whole URL of its page. So nothing that tells the locations apart is shown when the text is accepted
and every relative reference can be joined (`errors_hide_location`).
-/

namespace ToolGateway

namespace Twofold

variable {p : Twofold}

theorem Joins.eq_of_errors (h : p.Joins) {e e' : Error} (errors : p.Errors e e') : e = e' := by
  cases errors with
  | same e => rfl
  | faults said =>
    have same : ∀ m m', p.Faults m m' → m = m' := by
      intro m m' faults
      cases faults with
      | same m => rfl
      | faulty faulty => rw [h.eq_of_faulty faulty]
    have listed := said.imp same
    rw [List.forall₂_eq_eq_eq] at listed
    rw [listed]

/-! ### Descriptions by themselves -/

/-- No reference of the description leads away from it. -/
structure Alone (p : Twofold) : Prop where
  first : ∀ reference ∈ p.value.references, ∀ t,
    Target.parse p.world.files p.first reference = .ok t → t.source = p.first
  second : ∀ reference ∈ p.value.references, ∀ t,
    Target.parse p.world.files p.second reference = .ok t → t.source = p.second

namespace Alone

variable {s s' : Source} {v : Json}

theorem value_eq (held : p.Held p.first v) : v = p.value := by
  generalize same : p.first = s at held
  cases held with
  | given => rfl
  | read other _ _ =>
    rw [← same, Source.same_iff.mpr rfl] at other
    cases other

theorem pair_eq (h : p.Alone) (pair : p.Pair s s') : s = p.first ∧ s' = p.second := by
  induction pair with
  | roots => exact ⟨rfl, rfl⟩
  | refers _ held mem leads leads' ih =>
    obtain ⟨rfl, rfl⟩ := ih
    obtain rfl := value_eq held
    exact ⟨h.first _ mem _ leads, h.second _ mem _ leads'⟩

theorem parallel (h : p.Alone)
    (fetched : ∀ u v, p.first = .page u → p.second = .page v → p.world.fetch u = p.world.fetch v) :
    p.Parallel := by
  constructor
  · intro u v pair
    obtain ⟨first, second⟩ := h.pair_eq pair
    exact fetched u v first.symm second.symm
  · intro s s' t t' pair pair'
    obtain ⟨rfl, rfl⟩ := h.pair_eq pair
    obtain ⟨rfl, rfl⟩ := h.pair_eq pair'
    rw [Source.same_iff.mpr rfl, Source.same_iff.mpr rfl]

theorem joins (h : p.Alone) (never : ∀ reference ∈ p.value.references,
    Source.isRelative (Target.parts reference).1 = false) : p.Joins := by
  intro u v value reference pair held mem relative
  obtain ⟨first, -⟩ := h.pair_eq pair
  rw [first] at held
  obtain rfl := value_eq held
  cases (never reference mem).symm.trans relative

end Alone

end Twofold

/-! ### Two locations -/

/-- Two locations on the web with their URLs, the world in which a description is read from them, and
how it is read. -/
structure Locations where
  world : World
  check : DigestCheck
  switches : Dict Bool
  first : String
  second : String
  url : Url
  url' : Url

namespace Locations

variable {l : Locations}

/-- A description under both locations. -/
def twofold (l : Locations) (d : Document) : Twofold :=
  ⟨l.world, .page l.url.withoutFragment, .page l.url'.withoutFragment, d.root⟩

/-- A description is what the first location leads to after filtering. -/
def Leads (l : Locations) (d : Document) : Prop :=
  ∃ raw, Document.read l.world l.check l.first = .ok raw ∧ Filter.apply l.switches raw = .ok d

/-- The locations differ in user info, query or fragment only, the same is found under both, and the
runs of the references are parallel. -/
structure Twins (l : Locations) : Prop where
  web : Source.isWeb l.first = true
  web' : Source.isWeb l.second = true
  parsed : Url.parse l.first = .ok l.url
  parsed' : Url.parse l.second = .ok l.url'
  agree : l.url.Agrees l.url'
  fetched : l.world.fetch l.url.withoutFragment = l.world.fetch l.url'.withoutFragment
  parallel : ∀ d, l.Leads d → (l.twofold d).Parallel

/-- Makes a description of the text from a location, when it has the digest that is expected. -/
def accept (check : DigestCheck) (location text : String) : Except Error Document := do
  check.run location text
  Document.parse location text

/-- The errors of the two runs: they are the same, or the text was refused and each error shows its
location as it was given, or faults of references are listed. -/
inductive Reports (l : Locations) : Error → Error → Prop
  | same (e : Error) : l.Reports e e
  | refused {text : String} {faults : List String}
      (there : l.world.fetch l.url.withoutFragment = .ok text)
      (bad : accept l.check l.first text = .error (.invalidDocument l.first faults))
      (bad' : accept l.check l.second text = .error (.invalidDocument l.second faults)) :
      l.Reports (.invalidDocument l.first faults) (.invalidDocument l.second faults)
  | unresolved {d : Document} {e e' : Error} (leads : l.Leads d) (h : (l.twofold d).Errors e e') :
      l.Reports e e'

/-! ### Reading -/

/-- A text is accepted or refused for the same faults, whichever the location is. -/
theorem accept_related (check : DigestCheck) (a b text : String) :
    Except.Related (fun e e' => ∃ faults, e = .invalidDocument a faults ∧
        e' = .invalidDocument b faults) Eq (accept check a text) (accept check b text) := by
  have run : Except.Related (fun e e' => ∃ faults, e = .invalidDocument a faults ∧
      e' = .invalidDocument b faults) Eq (check.run a text) (check.run b text) := by
    unfold DigestCheck.run
    split
    · dsimp only
      split
      · exact .ok rfl
      · exact .error ⟨_, rfl, rfl⟩
    · exact .ok rfl
  refine run.bind fun _ _ _ => ?_
  unfold Document.parse
  split
  · exact .error ⟨_, rfl, rfl⟩
  · split
    · exact .ok rfl
    · exact .error ⟨_, rfl, rfl⟩

theorem parse_eq (files : Files) {location : String} {u : Url} (web : Source.isWeb location = true)
    (parsed : Url.parse location = .ok u) :
    Source.parse files location = .ok (.page u.withoutFragment) := by
  rw [Source.parse, if_pos web, parsed]

theorem read_eq {w : World} {check : DigestCheck} {location : String} {u : Url}
    (web : Source.isWeb location = true) (parsed : Url.parse location = .ok u) :
    Document.read w check location =
      (w.fetch u.withoutFragment).mapError (.fetch u.withoutFragment.redact) >>=
        accept check location := by
  unfold Document.read
  rw [parse_eq w.files web parsed]
  rfl

/-- Both runs read the same description, or fail with errors that say the same. -/
theorem Twins.read (t : l.Twins) : Except.Related l.Reports Eq
    (Document.read l.world l.check l.first) (Document.read l.world l.check l.second) := by
  rw [read_eq t.web t.parsed, read_eq t.web' t.parsed', ← t.fetched,
    ← t.agree.withoutFragment.redact_eq]
  cases there : l.world.fetch l.url.withoutFragment with
  | error fault => exact .error (.same _)
  | ok text =>
    show Except.Related _ _ (accept l.check l.first text) (accept l.check l.second text)
    have accepted := accept_related l.check l.first l.second text
    have refused : ∀ faults, accept l.check l.first text = .error (.invalidDocument l.first faults) →
        accept l.check l.second text = .error (.invalidDocument l.second faults) →
        l.Reports (.invalidDocument l.first faults) (.invalidDocument l.second faults) :=
      fun _ bad bad' => .refused there bad bad'
    generalize accept l.check l.first text = x, accept l.check l.second text = y
      at accepted refused ⊢
    cases accepted with
    | ok same => exact .ok same
    | error bad =>
      obtain ⟨faults, rfl, rfl⟩ := bad
      exact .error (refused faults rfl rfl)

theorem Twins.mirrored (t : l.Twins) {d : Document} (leads : l.Leads d) :
    (l.twofold d).Mirrored where
  toParallel := t.parallel d leads
  alike := .page t.agree.withoutFragment
  clean := Source.clean_page (.of_parse t.parsed)
  clean' := Source.clean_page (.of_parse t.parsed')
  settled := Source.settled_of_web t.web t.parsed
  settled' := Source.settled_of_web t.web' t.parsed'

/-- Both runs make the same of what they read, or fail with errors that say the same. -/
theorem Twins.finish (t : l.Twins) {raw : Document}
    (read : Document.read l.world l.check l.first = .ok raw) :
    Except.Related l.Reports Eq
      (Registry.finish l.world (.page l.url.withoutFragment) l.switches raw)
      (Registry.finish l.world (.page l.url'.withoutFragment) l.switches raw) := by
  unfold Registry.finish
  cases filtered : Filter.apply l.switches raw with
  | error e => exact .error (.same e)
  | ok d =>
    have leads : l.Leads d := ⟨raw, read, filtered⟩
    exact (t.mirrored leads).resolve.mono (fun _ _ h => .unresolved leads h) fun _ _ same => same

/-- Both runs make the same description, or fail with errors that say the same. -/
theorem Twins.made (t : l.Twins) : Except.Related l.Reports Eq
    (Document.read l.world l.check l.first >>=
      Registry.finish l.world (.page l.url.withoutFragment) l.switches)
    (Document.read l.world l.check l.second >>=
      Registry.finish l.world (.page l.url'.withoutFragment) l.switches) := by
  refine t.read.found.bind fun raw raw' found => ?_
  obtain ⟨rfl, read, -⟩ := found
  exact t.finish read

/-! ### Registries -/

/-- Registries that hold one description from the two locations. -/
def Same (l : Locations) (r r' : Registry) : Prop :=
  ∃ document, r = ⟨l.first, .page l.url.withoutFragment, l.check, l.switches, document⟩ ∧
    r' = ⟨l.second, .page l.url'.withoutFragment, l.check, l.switches, document⟩

/-- What is done with the two locations ends alike, with errors in a relation. -/
structure EndsAlike (l : Locations) (E : Error → Error → Prop) : Prop where
  load : Except.Related E l.Same (Registry.load l.world l.first l.check l.switches)
    (Registry.load l.world l.second l.check l.switches)
  reload : ∀ r r', l.Same r r' →
    Except.Related E Eq (r.reload l.world).1 (r'.reload l.world).1 ∧
      l.Same (r.reload l.world).2 (r'.reload l.world).2
  reloadIfUpdated : ∀ known r r', l.Same r r' →
    Except.Related E Eq (r.reloadIfUpdated l.world known).1 (r'.reloadIfUpdated l.world known).1 ∧
      l.Same (r.reloadIfUpdated l.world known).2 (r'.reloadIfUpdated l.world known).2

theorem EndsAlike.mono {E E' : Error → Error → Prop} (h : l.EndsAlike E)
    (errors : ∀ e e', E e e' → E' e e') : l.EndsAlike E' where
  load := h.load.mono errors fun _ _ same => same
  reload r r' same := by
    obtain ⟨results, after⟩ := h.reload r r' same
    exact ⟨results.mono errors fun _ _ same => same, after⟩
  reloadIfUpdated known r r' same := by
    obtain ⟨results, after⟩ := h.reloadIfUpdated known r r' same
    exact ⟨results.mono errors fun _ _ same => same, after⟩

/-- What both runs made is put in place in both registries, or nothing in either. -/
theorem Same.store {r r' : Registry} (same : l.Same r r') {E : Error → Error → Prop}
    {x y : Except Error Document} (h : Except.Related E Eq x y) :
    Except.Related E Eq (r.store x).1 (r'.store y).1 ∧ l.Same (r.store x).2 (r'.store y).2 := by
  obtain ⟨document, rfl, rfl⟩ := same
  cases h with
  | ok made =>
    subst made
    exact ⟨.ok rfl, _, rfl, rfl⟩
  | error failed => exact ⟨.error failed, document, rfl, rfl⟩

/-- Loading is reading and finishing, and the URL of the location is the root. -/
theorem load_eq {w : World} {check : DigestCheck} {switches : Dict Bool} {location : String} {u : Url}
    (web : Source.isWeb location = true) (parsed : Url.parse location = .ok u) :
    Registry.load w location check switches =
      (Document.read w check location >>= Registry.finish w (.page u.withoutFragment) switches) >>=
        fun document => .ok ⟨location, .page u.withoutFragment, check, switches, document⟩ := by
  unfold Registry.load
  rw [parse_eq w.files web parsed, bind_assoc]
  rfl

/-- Whatever is done with the two locations ends alike. -/
theorem Twins.endsAlike (t : l.Twins) : l.EndsAlike l.Reports := by
  constructor
  case load =>
    rw [load_eq t.web t.parsed, load_eq t.web' t.parsed']
    refine t.made.bind fun document document' same => ?_
    subst same
    exact .ok ⟨document, rfl, rfl⟩
  case reload =>
    intro r r' same
    have stored := same.store t.made
    obtain ⟨document, rfl, rfl⟩ := same
    exact stored
  case reloadIfUpdated =>
    rintro known r r' ⟨document, rfl, rfl⟩
    have read := t.read.found
    unfold Registry.reloadIfUpdated Registry.raw
    dsimp only
    generalize Document.read l.world l.check l.second = y at read
    cases first : Document.read l.world l.check l.first with
    | error e =>
      rw [first] at read
      cases read with
      | error failed => exact ⟨.error failed, document, rfl, rfl⟩
    | ok raw =>
      rw [first] at read
      cases read with
      | ok found =>
        obtain ⟨rfl, -, -⟩ := found
        dsimp only
        split
        · exact ⟨.ok rfl, document, rfl, rfl⟩
        · have stored := Same.store (l := l) ⟨document, rfl, rfl⟩ (t.finish first)
          refine ⟨?_, stored.2⟩
          exact stored.1.map fun _ _ _ => rfl

/-! ### Errors that are the same -/

/-- The text from the first location is accepted. -/
def Accepts (l : Locations) : Prop :=
  ∀ text, l.world.fetch l.url.withoutFragment = .ok text →
    ∃ raw, accept l.check l.first text = .ok raw

/-- Every relative reference in the documents that are read can be joined. -/
def Joins (l : Locations) : Prop := ∀ d, l.Leads d → (l.twofold d).Joins

theorem Reports.eq_of_accepts {e e' : Error} (h : l.Reports e e') (accepts : l.Accepts)
    (joins : l.Joins) : e = e' := by
  cases h with
  | same e => rfl
  | refused there bad bad' =>
    obtain ⟨raw, accepted⟩ := accepts _ there
    cases bad.symm.trans accepted
  | unresolved leads errors => exact (joins _ leads).eq_of_errors errors

end Locations

/-- Two locations that differ in user info, query or fragment only, and lead to the same texts: every
error of loading and reloading is the same for both, or the text was refused and the errors differ in
the location as it was given, or they list faults that are the same but for the bases of relative
references that cannot be joined. When the text is accepted and every relative reference can be
joined, every error has one and the same text for both. -/
theorem errors_hide_location {l : Locations} (t : l.Twins) :
    l.EndsAlike l.Reports ∧
      (l.Accepts → l.Joins → l.EndsAlike fun e e' => e.message = e'.message) := by
  refine ⟨t.endsAlike, fun accepts joins => t.endsAlike.mono fun e e' report => ?_⟩
  rw [report.eq_of_accepts accepts joins]

/-! ### Locations with and without a password and a token -/

namespace Locations

/-- Whether no reference of a description leads away from its source. -/
def staysIn (w : World) (s : Source) (d : Document) : Bool :=
  d.root.references.all fun reference =>
    match Target.parse w.files s reference with
    | .ok t => t.source == s
    | .error _ => true

/-- Whether two locations are seen to be twins, since no reference leads away from the description. -/
def seemTwins (l : Locations) : Bool :=
  Source.isWeb l.first && Source.isWeb l.second && decide (Url.parse l.first = .ok l.url) &&
    decide (Url.parse l.second = .ok l.url') && l.url.scheme == l.url'.scheme &&
    l.url.host == l.url'.host && l.url.port == l.url'.port && l.url.path == l.url'.path &&
    decide (l.world.fetch l.url.withoutFragment = l.world.fetch l.url'.withoutFragment) &&
    (Document.read l.world l.check l.first >>= Filter.apply l.switches).toOption.all fun d =>
      staysIn l.world (.page l.url.withoutFragment) d &&
        staysIn l.world (.page l.url'.withoutFragment) d

theorem alone_of_staysIn {w : World} {s : Source} {d : Document} (h : staysIn w s d = true) :
    ∀ reference ∈ d.root.references, ∀ t, Target.parse w.files s reference = .ok t →
      t.source = s := by
  intro reference mem t leads
  have stays := List.all_eq_true.mp h reference mem
  rw [leads] at stays
  exact beq_iff_eq.mp stays

theorem twins_of_seemTwins {l : Locations} (h : l.seemTwins = true) :
    l.Twins ∧ ∀ d, l.Leads d → (l.twofold d).Alone := by
  simp only [seemTwins, Bool.and_eq_true, beq_iff_eq, decide_eq_true_eq] at h
  obtain ⟨⟨⟨⟨⟨⟨⟨⟨⟨web, web'⟩, parsed⟩, parsed'⟩, scheme⟩, host⟩, port⟩, path⟩, fetched⟩, stays⟩ := h
  have alone : ∀ d, l.Leads d → (l.twofold d).Alone := by
    rintro d ⟨raw, read, filtered⟩
    have made : Document.read l.world l.check l.first >>= Filter.apply l.switches = .ok d := by
      rw [read]
      exact filtered
    rw [made] at stays
    obtain ⟨here, there⟩ := Bool.and_eq_true_iff.mp stays
    exact ⟨alone_of_staysIn here, alone_of_staysIn there⟩
  refine ⟨⟨web, web', parsed, parsed', ⟨scheme, host, port, path⟩, fetched, ?_⟩, alone⟩
  intro d leads
  refine (alone d leads).parallel ?_
  rintro x y ⟨⟩ ⟨⟩
  exact fetched

/-- Whether a description is read none of whose references is read against its source. -/
def isSelfContained (l : Locations) : Bool :=
  (Document.read l.world l.check l.first).toOption.any fun raw =>
    (Filter.apply l.switches raw).toOption.all fun d =>
      d.root.references.all fun reference => !Source.isRelative (Target.parts reference).1

theorem accepts_joins_of_isSelfContained {l : Locations} (t : l.Twins)
    (alone : ∀ d, l.Leads d → (l.twofold d).Alone) (h : l.isSelfContained = true) :
    l.Accepts ∧ l.Joins := by
  obtain ⟨raw, read, never⟩ := Except.exists_of_any h
  constructor
  · intro text there
    rw [read_eq t.web t.parsed, there] at read
    exact ⟨raw, read⟩
  · rintro d ⟨raw', read', filtered⟩
    cases read.symm.trans read'
    rw [filtered] at never
    refine (alone d ⟨raw, read, filtered⟩).joins fun reference mem => ?_
    simpa using List.all_eq_true.mp never reference mem

namespace Sample

def secret : String := "http://user:secret@h/spec.json?token=t"

def plain : String := "http://h/spec.json"

def url (location : String) : Url := (Url.parse location).toOption.getD default

/-- Both locations lead to one text, and nothing else is found. -/
def leadingTo (text : String) : Locations :=
  ⟨⟨⟨[], [], []⟩, [(secret, .ok text), (plain, .ok text)]⟩, .none, .empty, secret, plain, url secret,
    url plain⟩

/-- A description whose only path is a reference. -/
def referring (reference : String) : String :=
  (Json.object [("openapi", .str "3.0.3"), ("info", .object [("version", .str "1")]),
    ("paths", .object [("/a", .object [("$ref", .str reference)])])]).render

/-- Whether both locations fail to load, with texts of the errors that are the same or not. -/
def fails (l : Locations) (same : Bool) : Bool :=
  match Registry.load l.world l.first l.check l.switches,
    Registry.load l.world l.second l.check l.switches with
  | .error e, .error e' => (e.message == e'.message) == same
  | _, _ => false

theorem exists_of_fails {l : Locations} {same : Bool} (h : fails l same = true) :
    ∃ e e', Registry.load l.world l.first l.check l.switches = .error e ∧
      Registry.load l.world l.second l.check l.switches = .error e' ∧
      (e.message == e'.message) = same := by
  unfold fails at h
  split at h
  · next e e' first second => exact ⟨e, e', first, second, beq_iff_eq.mp h⟩
  · cases h

/-- A reference that leads nowhere. -/
def missing : Locations := leadingTo (referring "#/missing")

end Sample

end Locations

open Locations in
/-- The statement at a description whose reference leads nowhere. -/
theorem errors_hide_location_missing : Sample.missing.Twins ∧ Sample.missing.Accepts ∧
    Sample.missing.Joins ∧
    (∃ e, Registry.load Sample.missing.world Sample.missing.first Sample.missing.check
      Sample.missing.switches = .error e) ∧
    Sample.missing.EndsAlike Sample.missing.Reports ∧
    Sample.missing.EndsAlike fun e e' => e.message = e'.message := by
  obtain ⟨twins, alone⟩ := twins_of_seemTwins
    (show Sample.missing.seemTwins = true by decide +kernel)
  obtain ⟨e, -, fails, -⟩ := Sample.exists_of_fails
    (show Sample.fails Sample.missing true = true by decide +kernel)
  obtain ⟨accepts, joins⟩ := accepts_joins_of_isSelfContained twins alone (by decide +kernel)
  obtain ⟨reports, same⟩ := errors_hide_location twins
  exact ⟨twins, accepts, joins, ⟨e, fails⟩, reports, same accepts joins⟩

/-- The errors of loading differ, although the locations are twins. -/
def Locations.Shown (l : Locations) : Prop :=
  l.Twins ∧ ∃ e e', Registry.load l.world l.first l.check l.switches = .error e ∧
    Registry.load l.world l.second l.check l.switches = .error e' ∧ e.message ≠ e'.message

theorem Locations.shown_of_fails {l : Locations} (twins : l.seemTwins = true)
    (differ : Sample.fails l false = true) : l.Shown := by
  obtain ⟨e, e', first, second, differ⟩ := Sample.exists_of_fails differ
  exact ⟨(twins_of_seemTwins twins).1, e, e', first, second, by simpa using differ⟩

open Locations.Sample in
/-- Two locations that differ in a password and a token only, and lead to the same text: the errors
of loading differ when the text is no description, and when a relative reference cannot be joined. -/
theorem load_shows_location : (leadingTo "{}").Shown ∧ (leadingTo (referring "//[")).Shown := by
  constructor
  · exact Locations.shown_of_fails (by decide +kernel) (by decide +kernel)
  · exact Locations.shown_of_fails (by decide +kernel) (by decide +kernel)

end ToolGateway
