import ToolGateway.Proofs.Reference.Inlining
import ToolGateway.Proofs.Reference.Spellings

/-!
# What is loaded for a description

A description reaches the documents that its references name, directly or through others
(`Reached`). Loading them takes one course and comes to an end. It fetches only what the description
reaches, no document twice and never the description itself; and when it succeeds, every document
that is reached is in the library, so that a look-up of the expansion or of the graph fails only
when the place is not in the document (`preloads_ofRoot`).

It fails because of a document that is reached and cannot be read from the source under which it is
met first. A file that is met first under a path with a slash at its end cannot be read then, even
if it is met under its own path later (`ofRoot_crossed`).
-/

namespace ToolGateway

namespace Library

variable {files : Files} {w : World} {root source s : Source} {v : Json}
  {queue scanned fetched fetched' : List Source} {l l' : Library} {d : Source × Json} {t : Target}
  {r r' : Except Error Library} {e : Error}

/-! ### What is reached -/

/-- The document from a source, for a description that comes from `root`. -/
def content (w : World) (root : Source) (v : Json) (s : Source) : Except Error Json :=
  if s.same root then .ok v else s.document w

theorem content_of_same (same : s.identity = root.identity) : content w root v s = .ok v :=
  if_pos (Source.same_iff.mpr same)

theorem content_of_other (other : s.identity ≠ root.identity) :
    content w root v s = s.document w :=
  if_neg fun same => other (Source.same_iff.mp same)

/-- A source that a description names, directly or through the documents that it names. -/
inductive Reached (w : World) (root : Source) (v : Json) : Source → Prop
  | root : Reached w root v root
  | named {base : Source} {doc : Json} {t : Target} (reached : Reached w root v base)
      (read : content w root v base = .ok doc) (mem : t ∈ Target.within w.files base doc) :
      Reached w root v t.source

/-- What is known of a document does not depend on its source. -/
theorem content_eq {other : Source} {doc doc' : Json} (same : s.identity = other.identity)
    (settled : s.Settled) (settled' : other.Settled) (hs : content w root v s = .ok doc)
    (ho : content w root v other = .ok doc') : doc = doc' := by
  by_cases home : s.identity = root.identity
  · rw [content_of_same home] at hs
    rw [content_of_same (same.symm.trans home), hs] at ho
    exact Except.ok.inj ho
  · rw [content_of_other home] at hs
    rw [content_of_other fun h => home (same.trans h)] at ho
    exact Source.document_eq same settled settled' hs ho

/-! ### Courses of loading -/

namespace Loads

theorem deterministic (run : Loads w queue scanned l fetched r)
    (other : Loads w queue scanned l fetched' r') : fetched = fetched' ∧ r = r' := by
  induction run generalizing fetched' with
  | done =>
    cases other
    exact ⟨rfl, rfl⟩
  | skip seen _ ih =>
    cases other with
    | skip _ rest => exact ih rest
    | scan new _ _ | fail new _ => cases new.symm.trans seen
  | scan new loaded _ ih =>
    cases other with
    | skip seen _ => cases new.symm.trans seen
    | scan _ again rest =>
      cases loaded.symm.trans again
      obtain ⟨same, same'⟩ := ih rest
      exact ⟨congrArg _ same, same'⟩
    | fail _ failed => cases loaded.symm.trans failed
  | fail new failed =>
    cases other with
    | skip seen _ => cases new.symm.trans seen
    | scan _ loaded _ => cases loaded.symm.trans failed
    | fail _ again =>
      cases failed.symm.trans again
      exact ⟨rfl, rfl⟩

/-- What is fetched is not in the library, and no document is fetched twice. -/
theorem nodup (run : Loads w queue scanned l fetched r) :
    (fetched.map Source.identity).Nodup ∧ ∀ s ∈ fetched, s.identity ∉ l.identities := by
  induction run with
  | done => exact ⟨List.nodup_nil, nofun⟩
  | skip _ _ ih => exact ih
  | @scan _ _ _ fetched l _ d _ _ loaded _ ih =>
    rcases load_eq_ok loaded with ⟨-, rfl, none⟩ | ⟨fresh, rfl, -, rfl, one⟩
    · rwa [none]
    · obtain ⟨apart, later⟩ := ih
      have ids : ∀ s ∈ fetched, s.identity ∉ l.identities ∧ s.identity ≠ d.1.identity := by
        intro s hs
        have new := later s hs
        rwa [identities, List.map_append, List.mem_append, not_or, List.map_singleton,
          List.mem_singleton] at new
      rw [one, List.singleton_append, List.map_cons, List.nodup_cons]
      refine ⟨⟨?_, apart⟩, List.forall_mem_cons.mpr ⟨fresh, fun s hs => (ids s hs).1⟩⟩
      intro mem
      obtain ⟨s, hs, same⟩ := List.mem_map.mp mem
      exact (ids s hs).2 same
  | fail _ failed =>
    obtain ⟨fresh, -, one⟩ := load_eq_error failed
    rw [one]
    exact ⟨List.nodup_singleton _, List.forall_mem_singleton.mpr fresh⟩

/-- A library that is loaded holds what was fetched, as it was read. -/
theorem documents_eq (run : Loads w queue scanned l fetched r) (done : r = .ok l') :
    ∃ docs, l'.documents = l.documents ++ docs ∧ docs.map (·.1) = fetched ∧
      ∀ d ∈ docs, d.1.document w = .ok d.2 := by
  induction run with
  | done =>
    cases done
    exact ⟨[], (List.append_nil _).symm, rfl, nofun⟩
  | skip _ _ ih => exact ih done
  | @scan _ _ _ _ _ _ d _ _ loaded _ ih =>
    obtain ⟨docs, held, sources, read⟩ := ih done
    rcases load_eq_ok loaded with ⟨-, rfl, none⟩ | ⟨-, rfl, here, rfl, one⟩
    · rw [none]
      exact ⟨docs, held, sources, read⟩
    · refine ⟨d :: docs, ?_, ?_, List.forall_mem_cons.mpr ⟨here, read⟩⟩
      · rw [held, List.append_assoc, List.singleton_append]
      · rw [one, List.map_cons, sources, List.singleton_append]
  | fail _ _ => cases done

/-- Loading fails with the source that was fetched last, after all others were read. -/
theorem of_error (run : Loads w queue scanned l fetched r) (failed : r = .error e) :
    ∃ before last, fetched = before ++ [last] ∧ (∀ s ∈ before, ∃ doc, s.document w = .ok doc) ∧
      last.document w = .error e := by
  induction run with
  | done => cases failed
  | skip _ _ ih => exact ih failed
  | @scan _ _ _ _ _ _ d _ _ loaded _ ih =>
    obtain ⟨before, last, rfl, fine, bad⟩ := ih failed
    rcases load_eq_ok loaded with ⟨-, -, none⟩ | ⟨-, rfl, here, -, one⟩
    · exact ⟨before, last, by rw [none, List.nil_append], fine, bad⟩
    · exact ⟨d.1 :: before, last, by rw [one]; rfl, List.forall_mem_cons.mpr ⟨⟨_, here⟩, fine⟩, bad⟩
  | fail _ here =>
    cases failed
    obtain ⟨-, bad, one⟩ := load_eq_error here
    exact ⟨[], _, one, nofun, bad⟩

/-- Only what is reached is fetched, when that is true of all that waits and all that is there. -/
theorem reached (run : Loads w queue scanned l fetched r) (home : root.identity ∈ l.identities)
    (waiting : ∀ s ∈ queue, Reached w root v s)
    (there : ∀ d ∈ l.documents, Reached w root v d.1 ∧ content w root v d.1 = .ok d.2) :
    ∀ s ∈ fetched, Reached w root v s := by
  induction run with
  | done => exact nofun
  | skip _ _ ih => exact ih home (List.forall_mem_cons.mp waiting).2 there
  | @scan source _ _ _ _ _ d _ _ loaded _ ih =>
    obtain ⟨here, later⟩ := List.forall_mem_cons.mp waiting
    have ahead : ∀ {d : Source × Json}, Reached w root v d.1 → content w root v d.1 = .ok d.2 →
        ∀ scanned, ∀ s ∈ ahead w scanned d, Reached w root v s := by
      intro d reached read scanned s hs
      obtain ⟨⟨t, mem, rfl⟩, -⟩ := mem_ahead_iff.mp hs
      exact .named reached read mem
    rcases load_eq_ok loaded with ⟨held, rfl, none⟩ | ⟨fresh, rfl, read, rfl, one⟩
    · obtain ⟨reached, known⟩ := there d (document?_spec held).1
      rw [none]
      exact ih home (List.forall_mem_append.mpr ⟨later, ahead reached known _⟩) there
    · have other : d.1.identity ≠ root.identity := fun same => fresh (same ▸ home)
      have known : content w root v d.1 = .ok d.2 := (content_of_other other).trans read
      rw [one]
      refine List.forall_mem_append.mpr ⟨List.forall_mem_singleton.mpr here, ih ?_ ?_ ?_⟩
      · rw [identities, List.map_append]
        exact List.mem_append_left _ home
      · exact List.forall_mem_append.mpr ⟨later, ahead here known _⟩
      · exact List.forall_mem_append.mpr ⟨there, List.forall_mem_singleton.mpr ⟨here, known⟩⟩
  | fail _ failed =>
    obtain ⟨-, -, one⟩ := load_eq_error failed
    rw [one]
    exact List.forall_mem_singleton.mpr (List.forall_mem_cons.mp waiting).1

end Loads

/-! ### Look-ups -/

/-- The document of a target is there, and a look-up fails only when the place is not in it. -/
def Holds (l : Library) (t : Target) : Prop :=
  ∃ d, l.document? t.source = some d ∧
    (l.find? t = none → ∃ p, t.pointer = some p ∧ Pointer.find? d.2 p = none)

theorem holds_of_isSome (h : (l.document? t.source).isSome = true) : l.Holds t := by
  obtain ⟨d, there⟩ := Option.isSome_iff_exists.mp h
  refine ⟨d, there, fun absent => ?_⟩
  rw [find?, there] at absent
  cases pointer : t.pointer with
  | none =>
    rw [pointer] at absent
    cases absent
  | some p =>
    rw [pointer] at absent
    exact ⟨p, rfl, Option.map_eq_none_iff.mp absent⟩

theorem Settled.holds (h : l.Settled files) (named : l.Names files t) : l.Holds t :=
  holds_of_isSome (h.loaded t named)

end Library

namespace Expander

variable {x : Expander} {task task' : Task} {s s' : Expansion}

/-- A task that leads to named targets hands over to such tasks. -/
theorem Calls.named (call : x.Calls task s task' s')
    (h : task.All x.files (x.library.Names x.files)) :
    task'.All x.files (x.library.Names x.files) := by
  cases call with
  | items => exact h
  | members _ | beside _ _ => exact h.members
  | reference found => exact h.reference found
  | item | member | set _ => exact (Links.append.mp h).1
  | nextItems _ | nextMembers _ | skipped | nextBeside _ _ => exact (Links.append.mp h).2
  | deeper good _ | entered good _ => exact h _ List.mem_cons_self _ good
  | found present => exact Library.Names.links h present

/-- An expansion looks up named targets only. -/
theorem Comes.named (comes : x.Comes task s task' s')
    (h : task.All x.files (x.library.Names x.files)) :
    task'.All x.files (x.library.Names x.files) :=
  comes.induct (fun task _ => task.All x.files (x.library.Names x.files)) h
    fun before call => call.named before

end Expander

namespace Library

/-! ### Libraries that are loaded -/

/-- The library that loading leaves: the description and what was fetched, as it was read. -/
structure Filled (w : World) (root : Source) (v : Json) (fetched : List Source) (l : Library) :
    Prop where
  documents : ∃ docs, l.documents = (root, v) :: docs ∧ docs.map (·.1) = fetched ∧
    ∀ d ∈ docs, d.1.document w = .ok d.2
  reached : ∀ s ∈ fetched, Reached w root v s ∧ s.identity ≠ root.identity
  apart : (fetched.map Source.identity).Nodup
  settled : l.Settled w.files

namespace Filled

theorem mem_root (h : Filled w root v fetched l) : (root, v) ∈ l.documents := by
  obtain ⟨docs, is, -⟩ := h.documents
  rw [is]
  exact List.mem_cons_self

theorem content_eq (h : Filled w root v fetched l) (mem : d ∈ l.documents) :
    Reached w root v d.1 ∧ content w root v d.1 = .ok d.2 := by
  obtain ⟨docs, is, sources, read⟩ := h.documents
  rw [is] at mem
  rcases List.mem_cons.mp mem with rfl | mem
  · exact ⟨.root, content_of_same rfl⟩
  · obtain ⟨reached, other⟩ := h.reached d.1 (sources ▸ List.mem_map_of_mem mem)
    exact ⟨reached, (content_of_other other).trans (read d mem)⟩

theorem document?_root (h : Filled w root v fetched l) : l.document? root = some (root, v) := by
  obtain ⟨docs, is, -⟩ := h.documents
  rw [document?, is]
  exact List.find?_cons_of_pos (Source.same_iff.mpr rfl)

/-- Every document that is reached is there, and known under the source by which it is reached. -/
theorem reads (h : Filled w root v fetched l) (reached : Reached w root v s) :
    l.Reads w.files s ∧ ∃ d, l.document? s = some d := by
  induction reached with
  | root => exact ⟨.own h.mem_root, _, h.document?_root⟩
  | named _ read mem ih =>
    obtain ⟨reads, d, there⟩ := ih
    obtain ⟨held, same⟩ := document?_spec there
    have same := Library.content_eq (Source.same_iff.mp same)
      (reads.settled h.settled.readable there) (h.settled.readable d held) read
      (h.content_eq held).2
    rw [same] at mem
    refine ⟨.named reads there mem, ?_⟩
    rw [← Option.isSome_iff_exists]
    exact h.settled.loaded _ ⟨_, d, reads, there, mem⟩

/-- Every document that is reached, but for the description, was fetched once. -/
theorem exists_filter (h : Filled w root v fetched l) (reached : Reached w root v s)
    (other : s.identity ≠ root.identity) :
    ∃ f doc, fetched.filter (·.identity = s.identity) = [f] ∧ f.document w = .ok doc := by
  obtain ⟨-, d, there⟩ := h.reads reached
  obtain ⟨held, same⟩ := document?_spec there
  obtain ⟨docs, is, sources, read⟩ := h.documents
  have same := (Source.same_iff.mp same).symm
  rw [is] at held
  rcases List.mem_cons.mp held with rfl | held
  · exact absurd same.symm other
  have mem : d.1 ∈ fetched := sources ▸ List.mem_map_of_mem held
  have apart : (fetched.filterMap fun f => some f.identity).Nodup := by
    rw [List.filterMap_eq_map']
    exact h.apart
  obtain ⟨f, only⟩ := List.exists_filter_eq_singleton
    (p := fun f => decide (f.identity = s.identity)) (b := s.identity) apart
    (fun f _ one => congrArg some (of_decide_eq_true one)) ⟨d.1, mem, decide_eq_true same⟩
  have first : d.1 ∈ fetched.filter (·.identity = s.identity) :=
    List.mem_filter.mpr ⟨mem, decide_eq_true same⟩
  rw [only, List.mem_singleton] at first
  exact ⟨f, d.2, only, first ▸ read d held⟩

/-- Whatever the expansion looks up is there. -/
theorem holds_of_comes (h : Filled w root v fetched l) {text : String} {x : Expansion}
    (comes : (Expander.ofLibrary w.files l root v).Comes (.value root v) .start (.target t text) x) :
    l.Holds t := by
  refine h.settled.holds (comes.named ?_)
  intro text mem t parsed
  exact ⟨root, _, .own h.mem_root, h.document?_root,
    Target.mem_within_iff.mpr ⟨text, mem, parsed⟩⟩

/-- Whatever the graph of the references looks up is there. -/
theorem holds_of_mem_keys (h : Filled w root v fetched l) {k : String}
    (hk : k ∈ (ReferenceGraph.ofLibrary w.files l root v).keys) : ∃ t, t.key = k ∧ l.Holds t ∧
      (ReferenceGraph.ofLibrary w.files l root v).next k = (l.targets w.files t).map Target.key := by
  obtain ⟨-, -, keys⟩ :=
    ReferenceGraph.ofLibrary_spec w.files h.settled.readable h.document?_root
  obtain ⟨t, named, key, next⟩ := keys k hk
  exact ⟨t, key, h.settled.holds named, next⟩

end Filled

/-! ### The whole course -/

/-- Every document that is reached, but for the description, can be read from all sources under
which it is reached, or from none. -/
def ReadAlike (w : World) (root : Source) (v : Json) : Prop :=
  ∀ s t doc, Reached w root v s → Reached w root v t → s.identity = t.identity →
    s.identity ≠ root.identity → s.document w = .ok doc → t.document w = .ok doc

/-- What loading the documents of a description does. -/
structure Preloads (w : World) (root : Source) (v : Json) (fetched : List Source)
    (r : Except Error Library) : Prop where
  /-- Loading takes one course, and it comes to an end. -/
  course : ∀ fetched' r', Loads w [root] [] ⟨[(root, v)]⟩ fetched' r' ↔ fetched' = fetched ∧ r' = r
  /-- Only what the description reaches is fetched, and never the description itself. -/
  reached : ∀ s ∈ fetched, Reached w root v s ∧ s.identity ≠ root.identity
  /-- No document is fetched twice. -/
  apart : (fetched.map Source.identity).Nodup
  /-- A library that is loaded holds the description and what was fetched, as it was read. -/
  documents : ∀ l, r = .ok l → ∃ docs, l.documents = (root, v) :: docs ∧
    docs.map (·.1) = fetched ∧ ∀ d ∈ docs, d.1.document w = .ok d.2
  /-- When loading succeeds, every other document that is reached was fetched once. -/
  once : ∀ l, r = .ok l → ∀ s, Reached w root v s → s.identity ≠ root.identity →
    ∃ f doc, fetched.filter (·.identity = s.identity) = [f] ∧ f.document w = .ok doc
  /-- Then whatever a document that is reached names, from any of its sources, is there. -/
  named : ∀ l, r = .ok l → ∀ s, Reached w root v s →
    ∃ d, l.document? s = some d ∧ ∀ t ∈ Target.within w.files s d.2, l.Holds t
  /-- So is whatever the expansion looks up. -/
  expanded : ∀ l, r = .ok l → ∀ t text x,
    (Expander.ofLibrary w.files l root v).Comes (.value root v) .start (.target t text) x →
      l.Holds t
  /-- So is whatever the graph of the references looks up. -/
  graphed : ∀ l, r = .ok l → ∀ k ∈ (ReferenceGraph.ofLibrary w.files l root v).keys,
    ∃ t, t.key = k ∧ l.Holds t ∧
      (ReferenceGraph.ofLibrary w.files l root v).next k = (l.targets w.files t).map Target.key
  /-- Loading fails with the source that was fetched last, after all others were read. -/
  failed : ∀ e, r = .error e → ∃ before last, fetched = before ++ [last] ∧
    (∀ s ∈ before, ∃ doc, s.document w = .ok doc) ∧ last.document w = .error e
  /-- It fails just when something that is reached cannot be read, if all documents are read alike
  from their sources. -/
  fails : ReadAlike w root v → ((∃ e, r = .error e) ↔
    ∃ s e, Reached w root v s ∧ s.identity ≠ root.identity ∧ s.document w = .error e)

/-- A course of loading for a description. -/
theorem exists_loads_root (hr : root.Clean) (hs : root.Settled) :
    ∃ fetched, Loads w [root] [] ⟨[(root, v)]⟩ fetched (ofRoot w root v) := by
  obtain ⟨fetched, run⟩ := exists_loads_ofRoot (w := w) (v := v) hr hs
  exact ⟨_, .scan rfl load_root run⟩

theorem Loads.reached_of_root (run : Loads w [root] [] ⟨[(root, v)]⟩ fetched r) :
    ∀ s ∈ fetched, Reached w root v s ∧ s.identity ≠ root.identity := by
  intro s hs
  refine ⟨?_, fun same => run.nodup.2 s hs (same ▸ List.mem_cons_self)⟩
  refine run.reached List.mem_cons_self (List.forall_mem_singleton.mpr .root) ?_ s hs
  exact List.forall_mem_singleton.mpr ⟨.root, content_of_same rfl⟩

/-- The source of a failure is reached, and without one every document was read from a source. -/
theorem error_iff_of_readAlike
    (run : Loads w [root] [] ⟨[(root, v)]⟩ fetched r)
    (filled : ∀ l, r = .ok l → Filled w root v fetched l) (alike : ReadAlike w root v) :
    (∃ e, r = .error e) ↔
      ∃ s e, Reached w root v s ∧ s.identity ≠ root.identity ∧ s.document w = .error e := by
  constructor
  · rintro ⟨e, bad⟩
    obtain ⟨before, last, is, -, wrong⟩ := run.of_error bad
    obtain ⟨reached, other⟩ :=
      run.reached_of_root last (is ▸ List.mem_append_right _ List.mem_cons_self)
    exact ⟨last, e, reached, other, wrong⟩
  · rintro ⟨s, e, reached, other, wrong⟩
    cases done : r with
    | error e => exact ⟨e, rfl⟩
    | ok l =>
      obtain ⟨f, doc, only, read⟩ := (filled l done).exists_filter reached other
      have mem : f ∈ fetched.filter (·.identity = s.identity) := only ▸ List.mem_cons_self
      obtain ⟨mem, same⟩ := List.mem_filter.mp mem
      obtain ⟨first, away⟩ := run.reached_of_root f mem
      have good := alike f s doc first reached (of_decide_eq_true same) away read
      cases good.symm.trans wrong

/-- Loading takes its only course, whatever refers to whatever. -/
theorem preloads_ofRoot {location : String} (hroot : Source.parse files location = .ok root)
    (v : Json) : ∃ fetched, Preloads w root v fetched (ofRoot w root v) := by
  obtain ⟨fetched, run⟩ := exists_loads_root (w := w) (v := v) (Source.parse_spec hroot).1
    (Source.settled_of_parse hroot)
  have filled : ∀ l, ofRoot w root v = .ok l → Filled w root v fetched l := fun l done =>
    ⟨run.documents_eq done, run.reached_of_root, run.nodup.1, (ofRoot_spec hroot done).1⟩
  refine ⟨fetched, ?_, run.reached_of_root, run.nodup.1, fun l done => (filled l done).documents,
    fun l done s => (filled l done).exists_filter, ?_,
    fun l done t text x => (filled l done).holds_of_comes,
    fun l done k => (filled l done).holds_of_mem_keys, fun e bad => run.of_error bad,
    error_iff_of_readAlike run filled⟩
  · intro fetched' r'
    constructor
    · intro other
      obtain ⟨rfl, rfl⟩ := run.deterministic other
      exact ⟨rfl, rfl⟩
    · rintro ⟨rfl, rfl⟩
      exact run
  · intro l done s reached
    obtain ⟨reads, d, there⟩ := (filled l done).reads reached
    exact ⟨d, there, fun t mem => (filled l done).settled.holds ⟨s, d, reads, there, mem⟩⟩

/-! ### Descriptions with other documents -/

namespace Sample

open Document.Sample (ref)

/-- Where the descriptions stand. -/
def home : Source := .file "/api.json"

/-- Two files that lead to each other, and a page with a reference to nothing. -/
def shelf : World where
  files := ⟨[], [], [
    (["a.yaml"], Utf8.encode "p:\n  $ref: b.yaml"),
    (["b.yaml"], Utf8.encode "q:\n  $ref: a.yaml#/p")]⟩
  pages := [("https://example.com/c.yaml", .ok "r:\n  $ref: '#/s'")]

def leading : Json :=
  .object [("x", ref "a.yaml#/p"), ("y", ref "https://example.com/c.yaml"), ("z", ref "#/x")]

theorem exists_library_leading : ∃ l, ofRoot shelf home leading = .ok l ∧
    (l.documents.map (·.1.display) ==
      ["/api.json", "/a.yaml", "https://example.com/c.yaml", "/b.yaml"]) = true :=
  Except.exists_of_any (p := fun l : Library => l.documents.map (·.1.display) == _)
    (by decide +kernel)

/-- A file, and its path with a needless slash. -/
def note : World where
  files := ⟨[], [], [(["a.yaml"], Utf8.encode "p: 1")]⟩
  pages := []

def plain : Source := .file "/a.yaml"

def slash : Source := .file "/a.yaml/"

/-- One file is named in two ways. The first cannot be read in one description, the second in the
other. -/
def crossed : Json := .object [("x", ref "a.yaml/#/p"), ("y", ref "a.yaml#/p")]

def straight : Json := .object [("x", ref "a.yaml#/p"), ("y", ref "a.yaml/#/p")]

theorem exists_content_plain : ∃ doc, content note home crossed plain = .ok doc ∧
    (Target.within note.files plain doc).isEmpty = true :=
  Except.exists_of_any (p := fun doc => (Target.within note.files plain doc).isEmpty)
    (by decide +kernel)

theorem within_crossed :
    Target.within note.files home crossed = [⟨slash, some "/p"⟩, ⟨plain, some "/p"⟩] := by
  decide +kernel

/-- The description reaches the file only, under both paths. -/
theorem eq_of_reached {s : Source} (h : Reached note home crossed s) :
    s = home ∨ s = slash ∨ s = plain := by
  induction h with
  | root => exact Or.inl rfl
  | named _ read mem ih =>
    rcases ih with rfl | rfl | rfl
    · have same : content note home crossed home = .ok crossed := content_of_same rfl
      cases same.symm.trans read
      rw [within_crossed] at mem
      rcases List.mem_cons.mp mem with rfl | mem
      · exact Or.inr (Or.inl rfl)
      · rw [List.mem_singleton.mp mem]
        exact Or.inr (Or.inr rfl)
    · have unread : content note home crossed slash =
          .error (.unreadable "/a.yaml/" .notDirectory) := Except.eq_error_of (by decide +kernel)
      cases unread.symm.trans read
    · obtain ⟨doc, found, none⟩ := exists_content_plain
      cases found.symm.trans read
      rw [List.isEmpty_iff.mp none] at mem
      cases mem

theorem exists_library_straight : ∃ l, ofRoot note home straight = .ok l ∧
    (l.documents.map (·.1) == [home, plain]) = true :=
  Except.exists_of_any (p := fun l : Library => l.documents.map (·.1) == [home, plain])
    (by decide +kernel)

end Sample

open Sample in
/-- Files that lead to each other, and a page. -/
theorem preloads_ofRoot_shelf : ∃ l fetched, Source.parse shelf.files "/api.json" = .ok home ∧
    ofRoot shelf home leading = .ok l ∧
    Preloads shelf home leading fetched (ofRoot shelf home leading) ∧
    fetched.map Source.display = ["/a.yaml", "https://example.com/c.yaml", "/b.yaml"] := by
  have hroot : Source.parse shelf.files "/api.json" = .ok home := rfl
  obtain ⟨l, hl, shown⟩ := exists_library_leading
  obtain ⟨fetched, loads⟩ := preloads_ofRoot hroot leading
  refine ⟨l, fetched, hroot, hl, loads, ?_⟩
  obtain ⟨docs, is, rfl, -⟩ := loads.documents l hl
  have shown := beq_iff_eq.mp shown
  rw [is, List.map_cons] at shown
  rw [List.map_map]
  exact (List.cons.inj shown).2

open Sample in
/-- Every document that is reached can be read, and loading fails, unless its paths are met in the
other order. -/
theorem ofRoot_crossed :
    (∀ s, Reached note home crossed s → s.identity ≠ home.identity → ∃ t doc,
      Reached note home crossed t ∧ t.identity = s.identity ∧ t.document note = .ok doc) ∧
    ofRoot note home crossed = .error (.unreadable "/a.yaml/" .notDirectory) ∧
    ∃ l, ofRoot note home straight = .ok l := by
  refine ⟨?_, Except.eq_error_of (by decide +kernel), exists_library_straight.imp fun _ => And.left⟩
  intro s reached other
  obtain ⟨doc, read, -⟩ := exists_content_plain
  have away : plain.identity ≠ home.identity := by decide
  rw [content_of_other away] at read
  have mem : (⟨plain, some "/p"⟩ : Target) ∈ Target.within note.files home crossed := by
    rw [within_crossed]
    exact List.mem_cons_of_mem _ List.mem_cons_self
  have met : Reached note home crossed plain := .named .root (content_of_same rfl) mem
  rcases eq_of_reached reached with rfl | rfl | rfl
  · exact absurd rfl other
  · exact ⟨plain, doc, met, by decide, read⟩
  · exact ⟨plain, doc, met, rfl, read⟩

end Library

end ToolGateway
