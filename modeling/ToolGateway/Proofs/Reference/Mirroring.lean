import ToolGateway.Proofs.Reference.Counterparts
import ToolGateway.Reference.Expansion

/-!
# Expanding one description under two locations

The references of a description are expanded twice, once for each of the two pages it is read from.
When the runs are parallel they do the same step by step: the same documents are loaded for
counterparts (`Mirrored.ofRoot`), the graphs of references differ in the names of their keys only, so
the components have the same numbers (`Mirrored.components`), and every reference is cut off, put in,
known or entered in both runs (`Mirrored.step_eq`). So they come to the same value, or they fail with
faults that say the same, but for the bases of references that cannot be joined
(`Mirrored.resolve`).
-/

namespace ToolGateway.Twofold

variable {p : Twofold} {s s' : Source} {t t' : Target} {v : Json}

/-! ### Libraries -/

/-- One document in the libraries of the two runs. -/
structure Entries (p : Twofold) (d d' : Source × Json) : Prop where
  pair : p.Pair d.1 d'.1
  value : d.2 = d'.2
  held : p.Held d.1 d.2

/-- The references of a document correspond, under whichever sources both runs know it. -/
theorem Entries.refers (m : p.Mirrored) {d d' : Source × Json} (h : p.Entries d d')
    (known : p.Known s s') (same : s.same d.1 = true) (same' : s'.same d'.1 = true) :
    p.Refers s s' d.2.references := by
  have proper := m.pair_proper h.pair
  have settled := m.settled_of_held h.pair proper.1 proper.2 h.held
  have refers := m.refers h.pair h.held
  have alike := (m.pair_spec h.pair).1
  generalize d.1 = base, d'.1 = base' at *
  cases known with
  | file path =>
    cases alike with
    | page agree => cases same
    | file other => exact refers.file path
  | pair pair =>
    have own := m.pair_proper pair
    have alike' := (m.pair_spec pair).1
    cases alike' with
    | file path =>
      cases alike with
      | page agree => cases same
      | file other => exact refers.file path
    | page agree =>
      cases alike with
      | file other => cases same
      -- Pages that can be read are one when they are printed alike.
      | page agree' =>
        have same := Source.same_iff.mp same
        have same' := Source.same_iff.mp same'
        rw [(own.1.settled_of_same settled.1 same).url_eq settled.1 (Sum.inl.inj same),
          (own.2.settled_of_same settled.2 same').url_eq settled.2 (Sum.inl.inj same')]
        exact refers

/-- Libraries that hold the same documents for counterparts. -/
def Libraries (p : Twofold) (l l' : Library) : Prop :=
  List.Forall₂ p.Entries l.documents l'.documents

section

variable {l l' : Library}

theorem Libraries.document? (m : p.Mirrored) (h : p.Libraries l l') (hs : p.Known s s') :
    Option.Rel p.Entries (l.document? s) (l'.document? s') :=
  List.rel_find? h fun _ _ entries => m.same_eq hs (.pair entries.pair)

/-- What corresponding targets point to is one value, and its references correspond. -/
theorem Libraries.find? (m : p.Mirrored) (h : p.Libraries l l') (ht : p.Targets t t') :
    Option.Rel (fun n n' => n.2 = n'.2 ∧ p.Refers n.1 n'.1 n.2.references) (l.find? t)
      (l'.find? t') := by
  obtain ⟨known, pointer⟩ := ht
  have documents := h.document? m known
  unfold Library.find?
  rw [pointer]
  cases found : l.document? t.source with
  | none =>
    rw [found] at documents
    generalize l'.document? t'.source = found' at documents ⊢
    cases documents
    exact .none
  | some d =>
    cases found' : l'.document? t'.source with
    | none =>
      rw [found, found'] at documents
      cases documents
    | some d' =>
      rw [found, found'] at documents
      cases documents with
      | some entries =>
        have refers := entries.refers m known (Library.document?_spec found).2
          (Library.document?_spec found').2
        obtain ⟨source, value⟩ := d
        obtain ⟨source', value'⟩ := d'
        obtain rfl : value = value' := entries.value
        cases t'.pointer with
        | none => exact .some ⟨rfl, refers⟩
        | some place =>
          dsimp only
          cases inner : Pointer.find? value place with
          | none => exact .none
          | some part =>
            -- What a pointer leads to has references of the document only.
            refine .some ⟨rfl, refers.subset fun reference mem => ?_⟩
            exact Json.mem_references_of_within (Pointer.within_of_find? inner) mem

theorem Libraries.targets (m : p.Mirrored) (h : p.Libraries l l') (ht : p.Targets t t') :
    List.Forall₂ p.Targets (l.targets p.world.files t) (l'.targets p.world.files t') := by
  have found := h.find? m ht
  unfold Library.targets
  generalize l.find? t = x, l'.find? t' = y at found ⊢
  cases found with
  | none => exact .nil
  | @some n n' both =>
    obtain ⟨source, value⟩ := n
    obtain ⟨source', value'⟩ := n'
    obtain ⟨rfl, refers⟩ := both
    exact refers.within

theorem Libraries.referenceCount_eq (h : p.Libraries l l') :
    l.referenceCount = l'.referenceCount := by
  unfold Library.referenceCount
  unfold Libraries at h
  generalize l.documents = ds, l'.documents = ds' at h
  induction h with
  | nil => rfl
  | cons entries _ ih =>
    rw [List.flatMap_cons, List.flatMap_cons, List.length_append, List.length_append, ih,
      entries.value]

/-- The documents have paths with the same names, so as many sources come into question. -/
theorem Libraries.sourceCount_eq (m : p.Mirrored) (h : p.Libraries l l') (files : Files) :
    l.sourceCount files = l'.sourceCount files := by
  have maps : ∀ {α : Type} (f : Source × Json → α), (∀ d d', p.Entries d d' → f d = f d') →
      l.documents.map f = l'.documents.map f := by
    intro α f agree
    have mapped : List.Forall₂ Eq (l.documents.map f) (l'.documents.map f) := List.rel_map agree h
    rwa [List.forall₂_eq_eq_eq] at mapped
  have depths : l.depth = l'.depth := by
    unfold Library.depth
    rw [maps fun d => d.1.depth]
    rintro ⟨s, v⟩ ⟨s', v'⟩ entries
    cases (m.pair_spec entries.pair).1 <;> rfl
  have texts : l.texts files = l'.texts files := by
    unfold Library.texts
    rw [List.flatMap_def, List.flatMap_def, maps]
    rintro ⟨s, v⟩ ⟨s', v'⟩ entries
    obtain rfl : v = v' := entries.value
    cases (m.pair_spec entries.pair).1 <;> rfl
  rw [Library.sourceCount, Library.sourceCount, depths, texts, h.length_eq]

/-- The description itself is the first document of the library. -/
def Rooted (p : Twofold) (l : Library) : Prop := ∃ d ∈ l.documents, d.1 = p.first

/-- A document is loaded in both runs, or fails in both with one error. -/
theorem Libraries.load (m : p.Mirrored) (h : p.Libraries l l') (rooted : p.Rooted l)
    (hs : p.Pair s s') :
    Except.Related Eq (fun r r' => p.Entries r.1 r'.1 ∧ p.Libraries r.2 r'.2 ∧ p.Rooted r.2)
      (Library.load p.world s l) (Library.load p.world s' l') := by
  have known := h.document? m (.pair hs)
  unfold Library.load
  cases found : l.document? s with
  | some d =>
    rw [found] at known
    generalize l'.document? s' = found' at known ⊢
    cases known with
    | some entries => exact .ok ⟨entries, h, rooted⟩
  | none =>
    rw [found] at known
    generalize l'.document? s' = found' at known ⊢
    cases known
    dsimp only
    rw [← m.text_eq hs]
    cases there : s.text p.world with
    | error e => exact .error rfl
    | ok text =>
      simp only [bind, Except.bind]
      cases tree : Document.tree? text with
      | none => exact .error ((m.pair_spec hs).1.fault_eq _)
      | some v =>
        have other : s.same p.first = false := by
          obtain ⟨d, mem, first⟩ := rooted
          have none := List.find?_eq_none.mp found d mem
          rw [first] at none
          simpa using none
        have entries : p.Entries (s, v) (s', v) :=
          ⟨hs, rfl, .read other there tree⟩
        refine .ok ⟨entries, List.rel_append h (.cons entries .nil), ?_⟩
        obtain ⟨d, mem, first⟩ := rooted
        exact ⟨d, List.mem_append_left _ mem, first⟩

theorem Libraries.loadAll (m : p.Mirrored) {fuel : Nat} {queue queue' scanned scanned' : List Source}
    (h : p.Libraries l l') (rooted : p.Rooted l) (hq : List.Forall₂ p.Pair queue queue')
    (hs : List.Forall₂ p.Pair scanned scanned') :
    Except.Related Eq p.Libraries (Library.loadAll p.world fuel queue scanned l)
      (Library.loadAll p.world fuel queue' scanned' l') := by
  induction fuel generalizing queue queue' scanned scanned' l l' with
  | zero => exact .ok h
  | succ fuel ih =>
    have seen : ∀ {scanned scanned'}, List.Forall₂ p.Pair scanned scanned' → ∀ a b, p.Pair a b →
        scanned.any a.same = scanned'.any b.same := by
      intro scanned scanned' hs a b hab
      exact List.any_eq hs fun c d hcd => m.apart _ _ _ _ hab hcd
    have next := List.forall₂_dropWhile hq (seen hs)
    unfold Library.loadAll
    generalize queue.dropWhile _ = waiting, queue'.dropWhile _ = waiting' at next ⊢
    cases next with
    | nil => exact .ok h
    | @cons source source' rest rest' pair tail =>
      refine (h.load m rooted pair).bind fun r r' both => ?_
      obtain ⟨⟨base, v⟩, l⟩ := r
      obtain ⟨⟨base', v'⟩, l'⟩ := r'
      obtain ⟨⟨based, same, held⟩, h, rooted⟩ := both
      obtain rfl : v = v' := same
      have scanned := List.Forall₂.cons pair hs
      refine ih h rooted (List.rel_append tail ?_) scanned
      refine List.forall₂_filter (R := p.Pair) ?_ fun a b hab => congrArg _ (seen scanned a b hab)
      exact List.rel_map (fun t t' led => And.left led) (within_related (m.leads based held))

/-- Both runs load the same documents, or fail with one error. -/
theorem Mirrored.ofRoot (m : p.Mirrored) :
    Except.Related Eq p.Libraries (Library.ofRoot p.world p.first p.value)
      (Library.ofRoot p.world p.second p.value) := by
  have entries : p.Entries (p.first, p.value) (p.second, p.value) :=
    ⟨.roots, rfl, .given⟩
  have h : p.Libraries ⟨[(p.first, p.value)]⟩ ⟨[(p.second, p.value)]⟩ := .cons entries .nil
  exact h.loadAll m ⟨_, List.mem_cons_self, rfl⟩ (.cons .roots .nil) .nil

end

/-! ### Graphs -/

/-- Edges between keys that correspond. -/
def Edges (p : Twofold) (e e' : String × List String) : Prop :=
  p.Keys e.1 e'.1 ∧ List.Forall₂ p.Keys e.2 e'.2

theorem Mirrored.grow (m : p.Mirrored) {l l' : Library} (h : p.Libraries l l') {fuel : Nat}
    {pending pending' : List Target} {edges edges' : List (String × List String)}
    (hp : List.Forall₂ p.Targets pending pending') (he : List.Forall₂ p.Edges edges edges') :
    List.Forall₂ p.Edges (ReferenceGraph.grow p.world.files l fuel pending edges)
      (ReferenceGraph.grow p.world.files l' fuel pending' edges') := by
  induction fuel generalizing pending pending' edges edges' with
  | zero => exact he
  | succ fuel ih =>
    have seen : ∀ t t', p.Targets t t' →
        (edges.lookup t.key).isSome = (edges'.lookup t'.key).isSome := by
      intro t t' targets
      have found := List.rel_lookup m.biUnique_keys he targets.key
      generalize edges.lookup t.key = x, edges'.lookup t'.key = y at found ⊢
      cases found <;> rfl
    have next := List.forall₂_dropWhile hp seen
    unfold ReferenceGraph.grow
    generalize pending.dropWhile _ = waiting, pending'.dropWhile _ = waiting' at next ⊢
    cases next with
    | nil => exact he
    | cons targets tail =>
      have led := h.targets m targets
      refine ih (List.rel_append led tail) (List.rel_append he (.cons ⟨targets.key, ?_⟩ .nil))
      exact List.rel_map (R := p.Targets) (fun _ _ targets => targets.key) led

section

variable {g g' : ReferenceGraph}

theorem Mirrored.next (m : p.Mirrored) (h : List.Forall₂ p.Edges g.edges g'.edges) {k k' : String}
    (hk : p.Keys k k') : List.Forall₂ p.Keys (g.next k) (g'.next k') := by
  have found := List.rel_lookup m.biUnique_keys h hk
  unfold ReferenceGraph.next
  generalize g.edges.lookup k = x, g'.edges.lookup k' = y at found ⊢
  cases found with
  | none => exact .nil
  | some keys => exact keys

/-- Keys that correspond, with one number. -/
def Numbers (p : Twofold) (c c' : String × Nat) : Prop := p.Keys c.1 c'.1 ∧ c.2 = c'.2

/-- Searches for components that differ in the names of keys. -/
structure Searches (p : Twofold) (t t' : Tarjan) : Prop where
  nextIndex : t.nextIndex = t'.nextIndex
  index : List.Forall₂ p.Numbers t.index t'.index
  low : List.Forall₂ p.Numbers t.low t'.low
  onStack : List.Forall₂ p.Keys t.onStack t'.onStack
  stack : List.Forall₂ p.Keys t.stack t'.stack
  component : List.Forall₂ p.Numbers t.component t'.component
  count : t.count = t'.count

variable {k k' : String} {u u' : Tarjan}

theorem Searches.enter (h : p.Searches u u') (hk : p.Keys k k') :
    p.Searches (u.enter k) (u'.enter k') :=
  ⟨congrArg (· + 1) h.nextIndex, .cons ⟨hk, h.nextIndex⟩ h.index, .cons ⟨hk, h.nextIndex⟩ h.low,
    .cons hk h.onStack, .cons hk h.stack, h.component, h.count⟩

theorem Searches.setLow (h : p.Searches u u') (hk : p.Keys k k') (n : Nat) :
    p.Searches (u.setLow k n) (u'.setLow k' n) :=
  ⟨h.nextIndex, h.index, .cons ⟨hk, rfl⟩ h.low, h.onStack, h.stack, h.component, h.count⟩

theorem Searches.close (m : p.Mirrored) {stack stack' : List String} (h : p.Searches u u')
    (hk : p.Keys k k') (hs : List.Forall₂ p.Keys stack stack') :
    p.Searches (Tarjan.close k stack u) (Tarjan.close k' stack' u') := by
  induction hs generalizing u u' with
  | nil => exact h
  | @cons y y' rest rest' hy hs ih =>
    have closed : p.Searches { u with
        stack := rest
        onStack := u.onStack.filter (· != y)
        component := (y, u.count) :: u.component } { u' with
        stack := rest'
        onStack := u'.onStack.filter (· != y')
        component := (y', u'.count) :: u'.component } :=
      ⟨h.nextIndex, h.index, h.low, List.forall₂_filter h.onStack fun _ _ hz =>
        congrArg (!·) (List.beq_eq m.biUnique_keys hz hy), hs, .cons ⟨hy, h.count⟩ h.component, h.count⟩
    unfold Tarjan.close
    by_cases last : y = k
    · rw [if_pos last, if_pos ((Relator.rel_eq m.biUnique_keys hy hk).mp last)]
      exact closed
    · rw [if_neg last, if_neg fun same => last ((Relator.rel_eq m.biUnique_keys hy hk).mpr same)]
      exact ih closed

theorem Searches.complete (m : p.Mirrored) (h : p.Searches u u') (hk : p.Keys k k') :
    p.Searches (u.complete k) (u'.complete k') := by
  have closed := h.close m hk h.stack
  exact ⟨closed.nextIndex, closed.index, closed.low, closed.onStack, closed.stack, closed.component,
    congrArg (· + 1) closed.count⟩

theorem Searches.follow (m : p.Mirrored) {visit visit' : String → Tarjan → Option Tarjan}
    (visits : ∀ k k' u u', p.Keys k k' → p.Searches u u' →
      Option.Rel p.Searches (visit k u) (visit' k' u'))
    (h : p.Searches u u') (hk : p.Keys k k') {n n' : String} (hn : p.Keys n n') :
    Option.Rel p.Searches (u.follow visit k n) (u'.follow visit' k' n') := by
  unfold Tarjan.follow
  rw [List.lookup_eq m.biUnique_keys h.index hn, List.contains_eq m.biUnique_keys h.onStack hn]
  split
  · refine List.rel_bind (visits n n' u u' hn h) fun w w' hw => ?_
    rw [List.lookup_eq m.biUnique_keys hw.low hk, List.lookup_eq m.biUnique_keys hw.low hn]
    cases w'.low.lookup k' with
    | none => exact .none
    | some low =>
      cases w'.low.lookup n' with
      | none => exact .none
      | some reached => exact .some (hw.setLow hk _)
  · split
    · rw [List.lookup_eq m.biUnique_keys h.low hk]
      cases u'.low.lookup k' with
      | none => exact .none
      | some low =>
        cases u'.index.lookup n' with
        | none => exact .none
        | some reached => exact .some (h.setLow hk _)
    · exact .some h

/-- Searches from corresponding keys do the same. -/
theorem Mirrored.connect (m : p.Mirrored) (edges : List.Forall₂ p.Edges g.edges g'.edges)
    {depth : Nat} (h : p.Searches u u') (hk : p.Keys k k') :
    Option.Rel p.Searches (g.connect depth k u) (g'.connect depth k' u') := by
  induction depth generalizing k k' u u' with
  | zero => exact .none
  | succ depth ih =>
    unfold ReferenceGraph.connect
    refine List.rel_bind (List.rel_foldlM (m.next edges hk) (h.enter hk) ?_) fun w w' hw => ?_
    · exact fun _ _ _ _ hu hn => hu.follow m (fun _ _ _ _ hk h => ih h hk) hk hn
    · rw [List.lookup_eq m.biUnique_keys hw.low hk, List.lookup_eq m.biUnique_keys hw.index hk]
      cases w'.low.lookup k' with
      | none => exact .none
      | some low =>
        cases w'.index.lookup k' with
        | none => exact .none
        | some index =>
          refine .some ?_
          split
          · exact hw.complete m hk
          · exact hw

/-- Corresponding keys are in components of one number. -/
theorem Mirrored.components (m : p.Mirrored) (h : List.Forall₂ p.Edges g.edges g'.edges) :
    List.Forall₂ (fun c c' => p.Keys c.1 c'.1 ∧ c.2 = c'.2) g.components g'.components := by
  have keys : List.Forall₂ p.Keys g.keys g'.keys :=
    List.rel_map (R := p.Edges) (fun _ _ edge => edge.1) h
  have start : p.Searches .start .start := ⟨rfl, .nil, .nil, .nil, .nil, .nil, rfl⟩
  have found : Option.Rel (List.Forall₂ p.Numbers) (g.components? g.edges.length)
      (g'.components? g.edges.length) := by
    refine List.rel_bind (List.rel_foldlM keys start fun u u' k k' hu hk => ?_) fun _ _ hu => ?_
    · rw [List.lookup_eq m.biUnique_keys hu.index hk]
      split
      · exact .some hu
      · exact m.connect h hu hk
    · exact .some hu.component
  unfold ReferenceGraph.components
  rw [← h.length_eq]
  generalize g.components? _ = table, g'.components? _ = table' at found ⊢
  cases found with
  | none => exact .nil
  | some tables => exact tables

end

/-! ### Expansions -/

/-- Two faults: they say the same, or they are about one reference. -/
inductive Faults (p : Twofold) : String → String → Prop
  | same (message : String) : p.Faults message message
  | faulty {e e' : Error} (h : p.Faulty e e') : p.Faults e.message e'.message

/-- States of the two expansions that differ in the names of keys, and in what faults show. -/
structure Expansions (p : Twofold) (x x' : Expansion) : Prop where
  scope : Option.Rel (fun o o' => o.component = o'.component ∧
    List.Forall₂ p.Keys o.visited o'.visited) x.scope x'.scope
  done : List.Forall₂ (fun d d' => p.Keys d.1 d'.1 ∧ d.2 = d'.2) x.done x'.done
  faults : List.Forall₂ p.Faults x.faults x'.faults

/-- What the two expansions look up. -/
structure Expanders (p : Twofold) (x x' : Expander) : Prop where
  files : x.files = p.world.files
  files' : x'.files = p.world.files
  library : p.Libraries x.library x'.library
  components : List.Forall₂ (fun c c' => p.Keys c.1 c'.1 ∧ c.2 = c'.2) x.components x'.components

/-- Both expansions come to one value. -/
def Results {α : Type} (p : Twofold) (r r' : α × Expansion) : Prop :=
  r.1 = r'.1 ∧ p.Expansions r.2 r'.2

section

variable {x x' : Expander} {a a' : Expansion} {k k' : String}

theorem Expansions.fail (h : p.Expansions a a') {fault fault' : String}
    (same : p.Faults fault fault') : p.Expansions (a.fail fault) (a'.fail fault') :=
  ⟨h.scope, h.done, List.rel_append h.faults (.cons same .nil)⟩

theorem Expansions.visit (h : p.Expansions a a') (hk : p.Keys k k') :
    p.Expansions (Expander.visit k a) (Expander.visit k' a') := by
  obtain ⟨scope, done, faults⟩ := a
  obtain ⟨scope', done', faults'⟩ := a'
  refine ⟨?_, h.done, h.faults⟩
  have scopes : Option.Rel _ scope scope' := h.scope
  cases scopes with
  | none => exact .none
  | some both => exact .some ⟨both.1, .cons hk both.2⟩

theorem Expanders.component_eq (m : p.Mirrored) (hx : p.Expanders x x') (hk : p.Keys k k') :
    x.components.lookup k = x'.components.lookup k' :=
  List.lookup_eq m.biUnique_keys hx.components hk

theorem Expanders.enter (m : p.Mirrored) (hx : p.Expanders x x') (h : p.Expansions a a')
    (hk : p.Keys k k') : p.Expansions (x.enter k a) (x'.enter k' a') :=
  ⟨.some ⟨hx.component_eq m hk, .cons hk .nil⟩, h.done, h.faults⟩

/-- A reference is cut off, put in, known or entered in both runs. -/
theorem Expanders.step_eq (m : p.Mirrored) (hx : p.Expanders x x') (h : p.Expansions a a')
    (hk : p.Keys k k') : x.step a k = x'.step a' k' := by
  obtain ⟨scope, done, faults⟩ := a
  obtain ⟨scope', done', faults'⟩ := a'
  have scopes : Option.Rel _ scope scope' := h.scope
  have same : done.lookup k = done'.lookup k' := List.lookup_eq m.biUnique_keys h.done hk
  unfold Expander.step
  rw [hx.component_eq m hk]
  dsimp only
  rw [same]
  cases scopes with
  | none => rfl
  | @some o o' both =>
    dsimp only
    rw [both.1, List.contains_eq m.biUnique_keys both.2 hk]

variable {put put' : Target → String → Expansion → Json × Expansion}

/-- Two ways to expand the values of targets that come to the same. -/
def Puts (p : Twofold) (put put' : Target → String → Expansion → Json × Expansion) : Prop :=
  ∀ t t' reference a a', p.Targets t t' → p.Expansions a a' →
    p.Results (put t reference a) (put' t' reference a')

theorem Expanders.replace (m : p.Mirrored) (hx : p.Expanders x x') (puts : p.Puts put put')
    {reference : String} (h : p.Expansions a a')
    (leads : Except.Related (fun e e' => e = e' ∨ p.Faulty e e') p.Targets (Target.parse p.world.files s reference)
      (Target.parse p.world.files s' reference)) :
    p.Results (x.replace put s reference a) (x'.replace put' s' reference a') := by
  unfold Expander.replace
  rw [hx.files, hx.files']
  generalize Target.parse p.world.files s reference = parsed,
    Target.parse p.world.files s' reference = parsed' at leads ⊢
  cases leads with
  | error fault =>
    rcases fault with rfl | faulty
    · exact ⟨rfl, h.fail (.same _)⟩
    · exact ⟨rfl, h.fail (.faulty faulty)⟩
  | @ok t t' targets =>
    dsimp only
    rw [hx.step_eq m h targets.key]
    cases x'.step a' t'.key with
    | cut => exact ⟨rfl, h⟩
    | below => exact puts t t' reference _ _ targets (h.visit targets.key)
    | known v => exact ⟨rfl, h⟩
    | enter =>
      obtain ⟨same, after⟩ := puts t t' reference _ _ targets (hx.enter m h targets.key)
      exact ⟨same, h.scope, .cons ⟨targets.key, same⟩ after.done, after.faults⟩

mutual

/-- A value whose references correspond expands to one value in both runs. -/
theorem Expanders.expandWith (m : p.Mirrored) (hx : p.Expanders x x') (puts : p.Puts put put')
    (v : Json) (refers : p.Refers s s' v.references) {a a' : Expansion} (h : p.Expansions a a') :
    p.Results (x.expandWith put s v a) (x'.expandWith put' s' v a') := by
  match v with
  | .obj ⟨members⟩ =>
    rw [Expander.expandWith, Expander.expandWith]
    rw [Json.references] at refers
    have below := refers.subset (List.subset_append_right _ _)
    cases found : Json.referenceOf? members with
    | none =>
      have results := Expanders.expandMembers m hx puts members below h
      exact ⟨congrArg (fun ms => Json.obj ⟨ms⟩) results.1, results.2⟩
    | some reference =>
      have results := hx.replace m puts h (refers reference (by simp [found]))
      dsimp only
      generalize x.replace put s reference a = r, x'.replace put' s' reference a' = r' at results ⊢
      obtain ⟨value, b⟩ := r
      obtain ⟨value', b'⟩ := r'
      obtain ⟨rfl : value = value', after⟩ := results
      cases value with
      | obj target =>
        have results := Expanders.overlay m hx puts members target below after
        exact ⟨congrArg Json.obj results.1, results.2⟩
      | _ => exact ⟨rfl, after⟩
  | .arr items =>
    rw [Expander.expandWith, Expander.expandWith]
    rw [Json.references] at refers
    have results := Expanders.expandItems m hx puts items refers h
    exact ⟨congrArg Json.arr results.1, results.2⟩
  | .null | .bool _ | .int _ | .float _ | .str _ => exact ⟨rfl, h⟩

theorem Expanders.expandItems (m : p.Mirrored) (hx : p.Expanders x x') (puts : p.Puts put put')
    (items : List Json) (refers : p.Refers s s' (Json.itemReferences items)) {a a' : Expansion}
    (h : p.Expansions a a') :
    p.Results (x.expandItems put s items a) (x'.expandItems put' s' items a') := by
  match items with
  | [] => exact ⟨rfl, h⟩
  | v :: rest =>
    rw [Json.itemReferences] at refers
    have first := Expanders.expandWith m hx puts v (refers.subset (List.subset_append_left _ _)) h
    have others := Expanders.expandItems m hx puts rest
      (refers.subset (List.subset_append_right _ _)) first.2
    exact ⟨congrArg₂ List.cons first.1 others.1, others.2⟩

theorem Expanders.expandMembers (m : p.Mirrored) (hx : p.Expanders x x') (puts : p.Puts put put')
    (members : List (String × Json)) (refers : p.Refers s s' (Json.memberReferences members))
    {a a' : Expansion} (h : p.Expansions a a') :
    p.Results (x.expandMembers put s members a) (x'.expandMembers put' s' members a') := by
  match members with
  | [] => exact ⟨rfl, h⟩
  | (k, v) :: rest =>
    rw [Json.memberReferences] at refers
    have first := Expanders.expandWith m hx puts v (refers.subset (List.subset_append_left _ _)) h
    have others := Expanders.expandMembers m hx puts rest
      (refers.subset (List.subset_append_right _ _)) first.2
    exact ⟨congrArg₂ (fun v rest => (k, v) :: rest) first.1 others.1, others.2⟩

theorem Expanders.overlay (m : p.Mirrored) (hx : p.Expanders x x') (puts : p.Puts put put')
    (members : List (String × Json)) (target : Json.Members)
    (refers : p.Refers s s' (Json.memberReferences members)) {a a' : Expansion}
    (h : p.Expansions a a') :
    p.Results (x.overlay put s members target a) (x'.overlay put' s' members target a') := by
  match members with
  | [] => exact ⟨rfl, h⟩
  | (k, v) :: rest =>
    rw [Json.memberReferences] at refers
    have below := refers.subset (List.subset_append_right _ _)
    rw [Expander.overlay, Expander.overlay]
    by_cases aside : k = "$ref"
    · rw [if_pos aside, if_pos aside]
      exact Expanders.overlay m hx puts rest target below h
    · rw [if_neg aside, if_neg aside]
      have first := Expanders.expandWith m hx puts v (refers.subset (List.subset_append_left _ _)) h
      dsimp only
      rw [first.1]
      exact Expanders.overlay m hx puts rest _ below first.2

end

/-- The values of corresponding targets expand to one value in both runs. -/
theorem Expanders.inline (m : p.Mirrored) (hx : p.Expanders x x') (fuel : Nat) :
    p.Puts (x.inline fuel) (x'.inline fuel) := by
  induction fuel using Nat.strongRecOn with
  | ind fuel ih =>
    intro t t' reference a a' targets h
    have found := hx.library.find? m targets
    unfold Expander.inline
    generalize x.library.find? t = y, x'.library.find? t' = y' at found ⊢
    cases found with
    | none =>
      refine ⟨rfl, h.fail ?_⟩
      rw [(m.known_spec targets.1).1.display_eq]
      exact .same _
    | @some n n' both =>
      obtain ⟨source, value⟩ := n
      obtain ⟨source', value'⟩ := n'
      obtain ⟨rfl, refers⟩ := both
      cases fuel with
      | zero => exact ⟨rfl, h⟩
      | succ fuel => exact hx.expandWith m (ih fuel (Nat.lt_succ_self fuel)) value refers h

end

/-! ### The whole expansion -/

/-- Two errors: the same, or both list faults of the runs. -/
inductive Errors (p : Twofold) : Error → Error → Prop
  | same (e : Error) : p.Errors e e
  | faults {shown : String} {faults faults' : List String} (h : List.Forall₂ p.Faults faults faults') :
      p.Errors (.invalidDocument shown faults) (.invalidDocument shown faults')

/-- Both runs resolve the description to the same, or fail with errors that say the same. -/
theorem Mirrored.resolve (m : p.Mirrored) :
    Except.Related p.Errors Eq ((⟨p.value⟩ : Document).resolve p.world p.first)
      ((⟨p.value⟩ : Document).resolve p.world p.second) := by
  unfold Document.resolve
  have loaded : Except.Related p.Errors p.Libraries (Library.ofRoot p.world p.first p.value)
      (Library.ofRoot p.world p.second p.value) :=
    m.ofRoot.mono (fun e _ same => same ▸ .same e) fun _ _ h => h
  refine loaded.bind fun l l' libraries => ?_
  have given : p.Refers p.first p.second p.value.references := m.refers .roots .given
  have edges : List.Forall₂ p.Edges
      (ReferenceGraph.ofLibrary p.world.files l p.first p.value).edges
      (ReferenceGraph.ofLibrary p.world.files l' p.second p.value).edges := by
    unfold ReferenceGraph.ofLibrary
    rw [libraries.referenceCount_eq, libraries.sourceCount_eq m]
    exact m.grow libraries given.within .nil
  generalize ReferenceGraph.ofLibrary p.world.files l p.first p.value = g,
    ReferenceGraph.ofLibrary p.world.files l' p.second p.value = g' at edges
  have expanders : p.Expanders ⟨p.world.files, l, g.components⟩ ⟨p.world.files, l', g'.components⟩ :=
    ⟨rfl, rfl, libraries, m.components edges⟩
  have start : p.Expansions .start .start := ⟨.none, .nil, .nil⟩
  obtain ⟨same, after⟩ := expanders.expandWith m
    (expanders.inline m (g'.edges.length + 1)) p.value given start
  dsimp only [Expander.expand]
  rw [edges.length_eq]
  generalize Expander.expandWith _ _ p.first _ _ = r, Expander.expandWith _ _ p.second _ _ = r'
    at same after ⊢
  obtain ⟨v, a⟩ := r
  obtain ⟨v', a'⟩ := r'
  obtain ⟨scope, done, faults⟩ := a
  obtain ⟨scope', done', faults'⟩ := a'
  obtain rfl : v = v' := same
  have said : List.Forall₂ p.Faults faults faults' := after.faults
  dsimp only
  cases said with
  | nil => exact .ok rfl
  | cons fault rest =>
    rw [m.alike.display_eq]
    exact .error (.faults (.cons fault rest))

end ToolGateway.Twofold
