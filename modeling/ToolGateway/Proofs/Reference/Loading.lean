import ToolGateway.Proofs.Reference.Keys

/-!
# Loading what references lead to

Loading takes one source after the other from a queue (`Loads`). Every document but the description
itself is read at a place of the world, and no place is read twice, so loading comes to an end
before it runs out of fuel (`exists_loads`). Then the library holds the document of every target
that is named in one of its documents (`ofRoot_spec`). The invariant says it of every document that
was scanned, up to the sources that still wait in the queue (`Loading`).
-/

namespace ToolGateway

/-! ### Places of the world -/

namespace World

/-- The identities of all places where a document can be. -/
def spots (w : World) : List (String ⊕ String) :=
  w.files.places.map (fun place => .inr (Source.plainPath (Files.pathOf place))) ++
    w.pages.map fun page => .inl page.1

theorem length_spots (w : World) : w.spots.length = w.size := by
  simp [spots, size]

/-- What can be read is at one of them. -/
theorem mem_spots {w : World} {s : Source} {text : String} (hs : s.Canonical w.files)
    (h : s.text w = .ok text) : s.identity ∈ w.spots := by
  cases s with
  | page u =>
    have hu : (w.pages.lookup u.render).isSome = true := by
      have h := Except.ok_of_mapError h
      unfold fetch at h
      split at h
      · cases hl : w.pages.lookup u.render with
        | none => rw [hl] at h; cases h
        | some _ => rfl
      · cases h
    obtain ⟨page, hp, he⟩ := List.mem_map.mp (ReferenceGraph.isSome_lookup_iff.mp hu)
    refine List.mem_append_right _ (List.mem_map.mpr ⟨page, hp, ?_⟩)
    exact congrArg Sum.inl he
  | file path =>
    obtain ⟨other, hother⟩ := hs
    apply List.mem_append_left
    unfold Files.canonical at hother
    split at hother
    · next place hf =>
      refine List.mem_map.mpr ⟨place, Files.mem_places_of_follow hf, ?_⟩
      rw [hother]
      rfl
    · next e hf =>
      simp only [Source.text, Files.read, hother, hf] at h
      cases h

end World

namespace Source

/-- The document from a source, read and parsed. -/
def document (w : World) (s : Source) : Except Error Json := do
  let text ← s.text w
  match Document.tree? text with
  | none => .error (s.fault "Failed to parse referenced document")
  | some v => return v

theorem document_eq_ok_iff {w : World} {s : Source} {v : Json} :
    s.document w = .ok v ↔ ∃ text, s.text w = .ok text ∧ Document.tree? text = some v := by
  unfold document
  constructor
  · intro h
    obtain ⟨text, read, h⟩ := Except.ok_of_bind h
    refine ⟨text, read, ?_⟩
    split at h
    · cases h
    · next parsed =>
      cases h
      exact parsed
  · rintro ⟨text, read, parsed⟩
    simp only [read, parsed, bind, Except.bind]
    rfl

/-- What can be read from two sources of one document is the same. -/
theorem document_eq {w : World} {s other : Source} {v v' : Json} (same : s.identity = other.identity)
    (settled : s.Settled) (settled' : other.Settled) (hs : s.document w = .ok v)
    (ho : other.document w = .ok v') : v = v' := by
  obtain ⟨text, read, parsed⟩ := document_eq_ok_iff.mp hs
  obtain ⟨text', read', parsed'⟩ := document_eq_ok_iff.mp ho
  rw [text_eq same settled settled' read read', parsed'] at parsed
  exact (Option.some.inj parsed).symm

end Source

namespace Library

variable {w : World} {root source : Source} {queue scanned fetched : List Source} {l l' : Library}
  {d : Source × Json} {v : Json} {fuel : Nat}

/-- The identities of the documents that a library holds. -/
def identities (l : Library) : List (String ⊕ String) := l.documents.map (·.1.identity)

theorem isSome_document?_iff {s : Source} :
    (l.document? s).isSome = true ↔ s.identity ∈ l.identities := by
  rw [document?, List.find?_isSome, identities, List.mem_map]
  exact exists_congr fun d => and_congr_right fun _ => by rw [Source.same_iff, eq_comm]

theorem any_same_iff {scanned : List Source} {s : Source} :
    scanned.any s.same = true ↔ s.identity ∈ scanned.map Source.identity := by
  rw [List.any_eq_true, List.mem_map]
  exact exists_congr fun d => and_congr_right fun _ => by rw [Source.same_iff, eq_comm]

/-! ### Steps of loading -/

/-- What loading a document asks the world for. -/
def fetches (l : Library) (source : Source) : List Source :=
  if (l.document? source).isSome then [] else [source]

/-- The sources that a document leads to and that were not scanned. -/
def ahead (w : World) (scanned : List Source) (d : Source × Json) : List Source :=
  ((Target.within w.files d.1 d.2).map (·.source)).filter fun s => !scanned.any s.same

theorem mem_ahead_iff {s : Source} : s ∈ ahead w scanned d ↔
    (∃ t ∈ Target.within w.files d.1 d.2, t.source = s) ∧ scanned.any s.same = false := by
  rw [ahead, List.mem_filter, List.mem_map, Bool.not_eq_true']

/-- Loading from a queue, one source after the other: what was scanned is skipped, and a document
that cannot be loaded ends it. It tells what was fetched, and the library or the failure at its
end. -/
inductive Loads (w : World) : List Source → List Source → Library → List Source →
    Except Error Library → Prop
  | done {scanned : List Source} {l : Library} : Loads w [] scanned l [] (.ok l)
  | skip {source : Source} {queue scanned fetched : List Source} {l : Library}
      {r : Except Error Library} (seen : scanned.any source.same = true)
      (rest : Loads w queue scanned l fetched r) : Loads w (source :: queue) scanned l fetched r
  | scan {source : Source} {queue scanned fetched : List Source} {l l' : Library}
      {d : Source × Json} {r : Except Error Library} (new : scanned.any source.same = false)
      (loaded : load w source l = .ok (d, l'))
      (rest : Loads w (queue ++ ahead w (source :: scanned) d) (source :: scanned) l' fetched r) :
      Loads w (source :: queue) scanned l (l.fetches source ++ fetched) r
  | fail {source : Source} {queue scanned : List Source} {l : Library} {e : Error}
      (new : scanned.any source.same = false) (failed : load w source l = .error e) :
      Loads w (source :: queue) scanned l (l.fetches source) (.error e)

theorem load_of_present (h : l.document? source = some d) : load w source l = .ok (d, l) := by
  rw [load, h]

theorem load_of_absent (h : l.document? source = none) : load w source l =
    (source.document w).map fun v => ((source, v), ⟨l.documents ++ [(source, v)]⟩) := by
  rw [load, h, Source.document]
  cases source.text w with
  | error e => rfl
  | ok text =>
    simp only [bind, Except.bind]
    cases Document.tree? text <;> rfl

theorem document?_eq_none_iff : l.document? source = none ↔ source.identity ∉ l.identities := by
  rw [← isSome_document?_iff, Bool.not_eq_true, Option.isSome_eq_false_iff,
    Option.isNone_iff_eq_none]

/-- A document that is loaded was there, or it is read and put at the end. -/
theorem load_eq_ok (h : load w source l = .ok (d, l')) :
    (l.document? source = some d ∧ l' = l ∧ l.fetches source = []) ∨
      (source.identity ∉ l.identities ∧ d.1 = source ∧ source.document w = .ok d.2 ∧
        l' = ⟨l.documents ++ [d]⟩ ∧ l.fetches source = [source]) := by
  cases there : l.document? source with
  | some other =>
    rw [load_of_present there] at h
    cases h
    exact Or.inl ⟨rfl, rfl, by rw [fetches, there]; rfl⟩
  | none =>
    rw [load_of_absent there] at h
    cases read : source.document w with
    | error e =>
      rw [read] at h
      cases h
    | ok v =>
      rw [read] at h
      cases h
      exact Or.inr ⟨document?_eq_none_iff.mp there, rfl, rfl, rfl, by rw [fetches, there]; rfl⟩

/-- A document that cannot be loaded was asked for and cannot be read or parsed. -/
theorem load_eq_error {e : Error} (h : load w source l = .error e) :
    source.identity ∉ l.identities ∧ source.document w = .error e ∧
      l.fetches source = [source] := by
  cases there : l.document? source with
  | some other =>
    rw [load_of_present there] at h
    cases h
  | none =>
    rw [load_of_absent there] at h
    refine ⟨document?_eq_none_iff.mp there, ?_, by rw [fetches, there]; rfl⟩
    cases read : source.document w with
    | error e' =>
      rw [read] at h
      cases h
      rfl
    | ok v =>
      rw [read] at h
      cases h

theorem loadAll_skip (seen : scanned.any source.same = true) :
    loadAll w (fuel + 1) (source :: queue) scanned l = loadAll w (fuel + 1) queue scanned l := by
  rw [loadAll, loadAll, List.dropWhile_cons_of_pos (p := fun s : Source => scanned.any s.same) seen]

theorem loadAll_scan (new : scanned.any source.same = false) :
    loadAll w (fuel + 1) (source :: queue) scanned l = load w source l >>= fun (d, l') =>
      loadAll w fuel (queue ++ ahead w (source :: scanned) d) (source :: scanned) l' := by
  rw [loadAll, List.dropWhile_cons_of_neg (by rw [new]; exact Bool.false_ne_true)]
  rfl

/-! ### Libraries that are loaded -/

/-- A library while it is loaded: all its documents were scanned, and what they lead to was scanned,
too, or waits in the queue. -/
structure Loading (w : World) (root : Source) (queue scanned : List Source) (l : Library) :
    Prop where
  distinct : l.identities.Nodup
  clean : ∀ d ∈ l.documents, d.1.Clean
  readable : l.Readable
  placed : ∀ d ∈ l.documents, d.1 = root ∨
    (d.1.Canonical w.files ∧ ∃ text, d.1.text w = .ok text)
  seen : ∀ s : Source, scanned.any s.same = true ↔ s.identity ∈ l.identities
  waiting : ∀ s ∈ queue, s.Clean ∧ s.Proper ∧ (s = root ∨ s.Canonical w.files)
  closed : ∀ d ∈ l.documents, ∀ t ∈ Target.within w.files d.1 d.2,
    t.source.identity ∈ l.identities ∨ t.source ∈ queue

namespace Loading

theorem length_le (h : Loading w root queue scanned l) : l.documents.length ≤ w.size + 1 := by
  have sub : l.identities ⊆ root.identity :: w.spots := by
    intro i hi
    obtain ⟨d, hd, rfl⟩ := List.mem_map.mp hi
    rcases h.placed d hd with hroot | ⟨hc, text, htext⟩
    · rw [hroot]
      exact List.mem_cons_self
    · exact List.mem_cons_of_mem _ (World.mem_spots hc htext)
  have := (List.subperm_of_subset h.distinct sub).length_le
  rw [identities, List.length_map, List.length_cons, World.length_spots] at this
  exact this

/-- What a document names under another source it names under its own one, too. -/
theorem settled (h : Loading w root [] scanned l) : l.Settled w.files where
  clean := h.clean
  readable := h.readable
  loaded := by
    rintro t ⟨s, d, reads, there, ht⟩
    obtain ⟨hd, same⟩ := document?_spec there
    obtain ⟨u, hu, one, -⟩ := Target.exists_within_of_identity (reads.settled h.readable there)
      (h.readable d hd) (Source.same_iff.mp same) ht
    rw [document?_congr one]
    rcases h.closed d hd u hu with hi | hi
    · exact isSome_document?_iff.mpr hi
    · cases hi

/-- What the references of a source can add to the queue. -/
theorem waiting_within {base : Source} {v : Json} {t : Target} (hc : base.Clean)
    (hs : base.Settled) (hb : base = root ∨ base.Canonical w.files)
    (ht : t ∈ Target.within w.files base v) :
    t.source.Clean ∧ t.source.Proper ∧ (t.source = root ∨ t.source.Canonical w.files) := by
  obtain ⟨r, -, hr⟩ := Target.mem_within_iff.mp ht
  refine ⟨(Target.parse_spec hc hr).1, Target.proper_of_parse hs hr, ?_⟩
  rcases (Target.parse_spec hc hr).2 with same | canonical
  · rw [same]
    exact hb
  · exact Or.inr canonical

/-- What was scanned need not wait. -/
theorem skip (h : Loading w root (source :: queue) scanned l)
    (seen : scanned.any source.same = true) : Loading w root queue scanned l := by
  refine ⟨h.distinct, h.clean, h.readable, h.placed, h.seen,
    fun s hs => h.waiting s (.tail _ hs), ?_⟩
  intro d hd t ht
  rcases h.closed d hd t ht with hi | hi
  · exact Or.inl hi
  · rcases List.mem_cons.mp hi with hi | hi
    · exact Or.inl (hi ▸ (h.seen source).mp seen)
    · exact Or.inr hi

/-- A document is read and scanned, and the sources that it leads to are put in the queue. -/
theorem scan (h : Loading w root (source :: queue) scanned l)
    (new : scanned.any source.same = false) (loaded : load w source l = .ok (d, l')) :
    Loading w root (queue ++ ahead w (source :: scanned) d) (source :: scanned) l' ∧
      l'.documents = l.documents ++ [d] := by
  have hnew : source.identity ∉ l.identities := by
    rw [← h.seen, new]
    exact Bool.false_ne_true
  rcases load_eq_ok loaded with ⟨there, -⟩ | ⟨-, rfl, read, rfl, -⟩
  · exact absurd (isSome_document?_iff.mp (by rw [there]; rfl)) hnew
  obtain ⟨text, htext, -⟩ := Source.document_eq_ok_iff.mp read
  obtain ⟨hclean, hproper, hplace⟩ := h.waiting d.1 List.mem_cons_self
  have hsettled := hproper.settled_of_text htext
  have ids : (⟨l.documents ++ [d]⟩ : Library).identities = l.identities ++ [d.1.identity] := by
    simp [identities]
  have seen : ∀ s : Source, (d.1 :: scanned).any s.same = true ↔
      s.identity ∈ l.identities ++ [d.1.identity] := by
    intro s
    rw [List.any_cons, Bool.or_eq_true, h.seen, Source.same_iff, List.mem_append,
      List.mem_singleton, or_comm]
  refine ⟨⟨?_, ?_, ?_, ?_, ?_, ?_, ?_⟩, rfl⟩
  · rw [ids, List.nodup_append]
    refine ⟨h.distinct, List.nodup_singleton _, ?_⟩
    rintro i hi j hj rfl
    rw [List.mem_singleton] at hj
    exact hnew (hj ▸ hi)
  · intro e he
    rcases List.mem_append.mp he with he | he
    · exact h.clean e he
    · rw [List.mem_singleton.mp he]
      exact hclean
  · intro e he
    rcases List.mem_append.mp he with he | he
    · exact h.readable e he
    · rw [List.mem_singleton.mp he]
      exact hsettled
  · intro e he
    rcases List.mem_append.mp he with he | he
    · exact h.placed e he
    · rw [List.mem_singleton.mp he]
      exact hplace.imp_right fun hc => ⟨hc, text, htext⟩
  · rw [ids]
    exact seen
  · intro s hs
    rcases List.mem_append.mp hs with hs | hs
    · exact h.waiting s (List.mem_cons_of_mem _ hs)
    · obtain ⟨⟨t, ht, rfl⟩, -⟩ := mem_ahead_iff.mp hs
      exact waiting_within hclean hsettled hplace ht
  · intro e he t ht
    rw [ids, List.mem_append, List.mem_append]
    rcases List.mem_append.mp he with he | he
    · rcases h.closed e he t ht with hi | hi
      · exact Or.inl (Or.inl hi)
      · rcases List.mem_cons.mp hi with hi | hi
        · rw [hi]
          exact Or.inl (Or.inr List.mem_cons_self)
        · exact Or.inr (Or.inl hi)
    -- What the new document leads to was scanned before, is itself, or is put in the queue.
    · rw [List.mem_singleton.mp he] at ht
      cases known : (d.1 :: scanned).any t.source.same with
      | true => exact Or.inl (List.mem_append.mp ((seen t.source).mp known))
      | false => exact Or.inr (Or.inr (mem_ahead_iff.mpr ⟨⟨t, ht, rfl⟩, known⟩))

/-- The description is in the library from the start and is scanned first. -/
theorem start (hr : root.Clean) (hs : root.Settled) :
    Loading w root (ahead w [root] (root, v)) [root] ⟨[(root, v)]⟩ := by
  refine ⟨List.nodup_singleton _, ?_, ?_, ?_, ?_, ?_, ?_⟩
  · intro d hd
    rw [List.mem_singleton.mp hd]
    exact hr
  · intro d hd
    rw [List.mem_singleton.mp hd]
    exact hs
  · intro d hd
    rw [List.mem_singleton.mp hd]
    exact Or.inl rfl
  · exact fun s => any_same_iff
  · intro s mem
    obtain ⟨⟨t, ht, rfl⟩, -⟩ := mem_ahead_iff.mp mem
    exact waiting_within hr hs (Or.inl rfl) ht
  · intro d hd t ht
    rw [List.mem_singleton.mp hd] at ht
    cases known : [root].any t.source.same with
    | true => exact Or.inl (any_same_iff.mp known)
    | false => exact Or.inr (mem_ahead_iff.mpr ⟨⟨t, ht, rfl⟩, known⟩)

end Loading

/-- With fuel for two more documents than there are places, loading comes to its end. -/
theorem exists_loads (h : Loading w root queue scanned l)
    (hf : w.size + 2 ≤ fuel + l.documents.length) :
    ∃ fetched, Loads w queue scanned l fetched (loadAll w fuel queue scanned l) := by
  induction fuel generalizing queue scanned l with
  -- Every document but the first has a place of its own, so there cannot be so many documents.
  | zero =>
    have := h.length_le
    omega
  | succ fuel ih =>
    induction queue with
    | nil => exact ⟨[], .done⟩
    | cons source queue waits =>
      cases seen : scanned.any source.same with
      | true =>
        obtain ⟨fetched, run⟩ := waits (h.skip seen)
        rw [loadAll_skip seen]
        exact ⟨fetched, .skip seen run⟩
      | false =>
        rw [loadAll_scan seen]
        cases loaded : load w source l with
        | error e => exact ⟨_, .fail seen loaded⟩
        | ok r =>
          obtain ⟨next, grown⟩ := h.scan seen loaded
          obtain ⟨fetched, run⟩ := ih next (by
            rw [grown, List.length_append, List.length_singleton]
            omega)
          exact ⟨_, .scan seen loaded run⟩

/-- When loading succeeds, nothing stays in the queue. -/
theorem Loads.loading {r : Except Error Library} (run : Loads w queue scanned l fetched r)
    (h : Loading w root queue scanned l) (done : r = .ok l') :
    (∃ scanned, Loading w root [] scanned l') ∧ l.documents <+: l'.documents := by
  induction run with
  | done =>
    cases done
    exact ⟨⟨_, h⟩, List.prefix_refl _⟩
  | skip seen _ ih => exact ih (h.skip seen) done
  | scan new loaded _ ih =>
    obtain ⟨next, grown⟩ := h.scan new loaded
    obtain ⟨ended, keep⟩ := ih next done
    exact ⟨ended, (grown ▸ List.prefix_append _ _).trans keep⟩
  | fail _ _ => cases done

theorem load_root : load w root ⟨[(root, v)]⟩ = .ok ((root, v), ⟨[(root, v)]⟩) := by
  have same : root.same root = true := Source.same_iff.mpr rfl
  exact load_of_present (by simp [document?, same])

theorem ofRoot_eq : ofRoot w root v =
    loadAll w (w.size + 1) (ahead w [root] (root, v)) [root] ⟨[(root, v)]⟩ := by
  rw [ofRoot, loadAll_scan rfl, load_root]
  rfl

/-- Loading what a description leads to comes to its end. -/
theorem exists_loads_ofRoot (hr : root.Clean) (hs : root.Settled) : ∃ fetched,
    Loads w (ahead w [root] (root, v)) [root] ⟨[(root, v)]⟩ fetched (ofRoot w root v) := by
  rw [ofRoot_eq]
  exact exists_loads (.start hr hs) (Nat.le_refl _)

/-- The library of a description holds it, and the document of every target that is named in it. -/
theorem ofRoot_spec {files : Files} {location : String} {v : Json}
    (hroot : Source.parse files location = .ok root) (h : ofRoot w root v = .ok l) :
    l.Settled w.files ∧ l.document? root = some (root, v) := by
  have hr := (Source.parse_spec hroot).1
  have hs := Source.settled_of_parse hroot
  obtain ⟨fetched, run⟩ := exists_loads_ofRoot (w := w) (v := v) hr hs
  obtain ⟨⟨_, loaded⟩, rest, is⟩ := run.loading (.start hr hs) h
  refine ⟨loaded.settled, ?_⟩
  rw [document?, ← is]
  exact List.find?_cons_of_pos (Source.same_iff.mpr rfl)

end Library

end ToolGateway
