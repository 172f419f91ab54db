import ToolGateway.Proofs.Reference.Inlining

/-!
# What references are replaced by

A reference whose target reaches no cycle is replaced by what plain inlining makes of the target,
wherever the expansion of a description meets it, also inside components that lead back to
themselves (`resolve_inlines`). It is never cut off, and the members beside it are set over the
target. A description all of whose references are of that kind resolves to its plain inlining, and
does so whenever it has one.
-/

namespace ToolGateway

namespace Expander

variable {x : Expander} {g : ReferenceGraph} {task task' : Task} {s s' : Expansion} {r : Json}
  {a : Trace}

/-- A member became another one where an expansion that starts with `task` came to it. -/
def Became (x : Expander) (task : Task) (s : Expansion) (source : Source) (m e : String × Json) :
    Prop :=
  e.1 = m.1 ∧ ∃ s₁ s₂ a, x.Comes task s (.value source m.2) s₁ ∧
    Runs x (.value source m.2) s₁ e.2 s₂ a

/-- The members beside a reference are set over its target one after another. -/
def setOver (target : Json.Members) (members : List (String × Json)) : Json.Members :=
  members.foldl (fun target m => target.insert m.1 m.2) target

/-- A run of the members beside a reference sets what they became over the target. -/
theorem Runs.exists_setOver {source : Source} {members : List (String × Json)}
    {target : Json.Members} {s₁ s₂ : Expansion}
    (h : Runs x (.beside source members target) s₁ r s₂ a)
    (comes : x.Comes task s (.beside source members target) s₁) :
    ∃ results, List.Forall₂ (x.Became task s source) (members.filter (·.1 != "$ref")) results ∧
      r = .obj (setOver target results) := by
  induction members generalizing target s₁ a with
  | nil =>
    cases h
    exact ⟨[], .nil, rfl⟩
  | cons m members ih =>
    cases h with
    | skipped rest => exact ih rest (comes.tail .skipped)
    | @set _ k v u _ _ _ _ _ _ _ _ other run rest =>
      obtain ⟨results, became, same⟩ := ih rest (comes.tail (.nextBeside other run))
      have kept : ((k, v) :: members).filter (·.1 != "$ref") =
          (k, v) :: members.filter (·.1 != "$ref") := List.filter_cons_of_pos (by simpa using other)
      rw [kept]
      exact ⟨(k, u) :: results, .cons ⟨rfl, _, _, _, comes.tail (.set other), run⟩ became, same⟩

/-- An object that is a reference was replaced at a point of an expansion that starts with `task`.
-/
structure Replaced (x : Expander) (task : Task) (source : Source) (members : List (String × Json))
    (text : String) (t : Target) (s : Expansion) (v r : Json) : Prop where
  /-- Plain inlining makes one value of the target. -/
  inlined : ∀ u, Inlines x.files x.library (.target t text) u ↔ u = v
  /-- The reference is not cut off. -/
  kept : x.step s t.key ≠ .cut
  /-- There the object has one result. -/
  result : ∀ u, (∃ s' a, Runs x (.value source (.obj ⟨members⟩)) s u s' a) ↔ u = r
  /-- When the target becomes no object, it is the result. -/
  plain : (∀ target, v ≠ .obj target) → r = v
  /-- When it becomes an object, what the members beside the reference became is set over it. -/
  overlaid : ∀ target, v = .obj target → ∃ results,
    List.Forall₂ (x.Became task .start source) (members.filter (·.1 != "$ref")) results ∧
      r = .obj (setOver target results)

/-- What is known stays plain when a run hands over without having found a fault. -/
theorem Plain.calls (hx : x.Charted g) (hk : x.Keyed) (placed : Placed x g task s)
    (hs : Plain x g s) (call : x.Calls task s task' s') (clean : s'.faults = []) :
    Plain x g s' := by
  rcases placed.before call with ⟨same, -⟩ | ⟨_, _, _, ⟨_, _, standing, follows⟩, run⟩
  · rwa [Plain, same]
  · exact (run.inlines hx hk standing follows hs clean).1

/-- At every point of a run that finds no fault there is such a run, and what is known is plain. -/
theorem Runs.plain_at (hx : x.Charted g) (hk : x.Keyed) (run : Runs x task .start r s' a)
    (placed : Placed x g task .start) (clean : s'.faults = [])
    (comes : x.Comes task .start task' s) :
    Placed x g task' s ∧ Plain x g s ∧ ∃ r' s₁ a', Runs x task' s r' s₁ a' ∧ s₁.faults = [] := by
  refine comes.induct (fun task s => Placed x g task s ∧ Plain x g s ∧
    ∃ r' s₁ a', Runs x task s r' s₁ a' ∧ s₁.faults = []) ?_ ?_
  · exact ⟨placed, by rintro e ⟨⟩, _, _, _, run, clean⟩
  · rintro task₁ s₁ task₂ s₂ ⟨placed, hs, _, _, _, run, clean⟩ call
    obtain ⟨_, _, _, run', faults⟩ := run.of_calls call
    have clean' := List.prefix_nil.mp (clean ▸ faults)
    exact ⟨placed.calls hx call, hs.calls hx hk placed call (run'.faults_start clean'),
      _, _, _, run', clean'⟩

/-- A run of a reference whose target reaches no cycle ends with what plain inlining makes of it. -/
theorem Runs.inlines_target (hx : x.Charted g) (hk : x.Keyed) {entry : Option String}
    {path : List String} {source : Source} {text : String} {t : Target}
    (run : Runs x (.reference source text) s r s' a) (standing : Standing x g entry path s)
    (follows : Follows x g entry (.reference source text)) (hs : Plain x g s)
    (clean : s'.faults = []) (good : Target.parse x.files source text = .ok t)
    (acyclic : g.Acyclic t.key) (u : Json) :
    Inlines x.files x.library (.target t text) u ↔ u = r := by
  have all : (Task.reference source text).All x.files fun t => g.Acyclic t.key := by
    intro text' htext v hv
    rw [List.mem_singleton.mp htext, good] at hv
    cases hv
    exact acyclic
  have h := (run.inlines hx hk standing follows hs clean).2 all
  cases h with
  | reference again inner =>
    rw [good] at again
    cases again
    constructor
    · exact fun other => other.unique inner
    · rintro rfl
      exact inner

/-- From the start, a task that leads to no cycle comes out without a fault exactly as it is inlined
plainly. -/
theorem Runs.eq_iff_inlines (hx : x.Charted g) (hk : x.Keyed) (run : Runs x task .start r s' a)
    (placed : Placed x g task .start) (all : task.All x.files fun t => g.Acyclic t.key) (u : Json) :
    (s'.faults = [] ∧ u = r) ↔ Inlines x.files x.library task u := by
  obtain ⟨entry, path, standing, follows⟩ := placed
  have plain : Plain x g .start := by rintro e ⟨⟩
  constructor
  · rintro ⟨clean, rfl⟩
    exact (run.inlines hx hk standing follows plain clean).2 all
  · intro inlines
    obtain ⟨_, _, other, clean⟩ :=
      exists_run_of_inlines hx hk inlines all standing follows plain rfl
    obtain ⟨rfl, rfl, -⟩ := run.deterministic other
    exact ⟨clean, rfl⟩

/-- A reference whose target reaches no cycle is replaced as plain inlining does it. -/
theorem Runs.replaced_at (hx : x.Charted g) (hk : x.Keyed) (run : Runs x task .start r s' a)
    (placed : Placed x g task .start) (clean : s'.faults = []) {source : Source}
    {members : List (String × Json)} {text : String} {t : Target}
    (comes : x.Comes task .start (.value source (.obj ⟨members⟩)) s)
    (found : Json.referenceOf? members = some text)
    (good : Target.parse x.files source text = .ok t)
    (straight : x.library.Straight x.files t) :
    ∃ v r, Replaced x task source members text t s v r := by
  obtain ⟨⟨entry, path, standing, follows⟩, hs, r, s₁, a, run, clean⟩ :=
    run.plain_at hx hk placed clean comes
  have link := follows.reference found
  have beyond := link _ List.mem_cons_self _ good
  have acyclic := hx.acyclic beyond.1.1 beyond.1.2.1 straight
  have kept : x.step s t.key ≠ .cut := by
    intro step
    obtain ⟨scope, inside, -⟩ := taken step
    exact standing.not_inside hx beyond acyclic scope inside
  have result : ∀ u, (∃ s' a, Runs x (.value source (.obj ⟨members⟩)) s u s' a) ↔ u = r := by
    intro u
    constructor
    · rintro ⟨_, _, other⟩
      exact (other.deterministic run).1
    · rintro rfl
      exact ⟨_, _, run⟩
  cases run with
  | leaf _ other => exact absurd rfl (other _)
  | object none _ =>
    rw [none] at found
    cases found
  | @overlaid _ _ _ target _ _ _ _ _ _ again run rest =>
    rw [found] at again
    cases again
    have inlined := run.inlines_target hx hk standing link hs (rest.faults_start clean) good acyclic
    refine ⟨.obj target, r, inlined, kept, result, ?_, ?_⟩
    · exact fun other => absurd rfl (other target)
    · rintro _ ⟨⟩
      exact rest.exists_setOver (comes.tail (.beside found run))
  | replaced again run other =>
    rw [found] at again
    cases again
    have inlined := run.inlines_target hx hk standing link hs clean good acyclic
    refine ⟨r, r, inlined, kept, result, fun _ => rfl, ?_⟩
    exact fun target h => absurd h (other target)

end Expander

namespace Document

variable {files : Files} {location : String} {w : World} {root : Source} {d : Document}
  {l : Library}

/-- Resolving a description inlines plainly where no cycle is reached. -/
structure Inlined (w : World) (root : Source) (d : Document) (l : Library) : Prop where
  /-- What is answered is what a run of the description ends with. -/
  run : ∀ d', d.resolve w root = .ok d' → ∃ s a,
    (Expander.ofLibrary w.files l root d.root).Runs (.value root d.root) .start d'.root s a
  /-- This run comes to everything that stands openly in a value that it comes to, and what that
  becomes takes its place. -/
  met : ∀ source v u place s r s' a,
    (Expander.ofLibrary w.files l root d.root).Comes (.value root d.root) .start
      (.value source v) s →
    (Expander.ofLibrary w.files l root d.root).Runs (.value source v) s r s' a →
    u.Openly place v → ∃ s₁ r₁ s₂ b,
      (Expander.ofLibrary w.files l root d.root).Comes (.value root d.root) .start
        (.value source u) s₁ ∧
      (Expander.ofLibrary w.files l root d.root).Runs (.value source u) s₁ r₁ s₂ b ∧
      r₁.At place r
  /-- Wherever this run comes to an object that is a reference, and the target of that reaches no
  cycle, the object is replaced as plain inlining does it. -/
  references : ∀ d', d.resolve w root = .ok d' → ∀ source members s,
    (Expander.ofLibrary w.files l root d.root).Comes (.value root d.root) .start
      (.value source (.obj ⟨members⟩)) s →
    ∀ text t, Json.referenceOf? members = some text →
      Target.parse w.files source text = .ok t → l.Straight w.files t →
        ∃ v r, Expander.Replaced (Expander.ofLibrary w.files l root d.root) (.value root d.root)
          source members text t s v r
  /-- When no reference of the description reaches a cycle, the answer is its plain inlining, and
  there is an answer when there is a plain inlining. -/
  straight : (∀ t ∈ Target.within w.files root d.root, l.Straight w.files t) →
    ∀ d', d.resolve w root = .ok d' ↔ Inlines w.files l (.value root d.root) d'.root

theorem resolve_inlines (hroot : Source.parse files location = .ok root)
    (hl : Library.ofRoot w root d.root = .ok l) (signless : l.Signless) : Inlined w root d l := by
  obtain ⟨settled, hd⟩ := Library.ofRoot_spec hroot hl
  have hx := Expander.charted_ofLibrary settled signless hd
  have hk := Expander.keyed_ofLibrary settled signless root d.root
  obtain ⟨placed, r, s, a, -, run, answer⟩ := exists_run hroot hl signless
  have ok_iff : ∀ d', d.resolve w root = .ok d' ↔ s.faults = [] ∧ d'.root = r := by
    intro d'
    rw [answer, ← List.isEmpty_iff]
    split
    · next clean =>
      constructor
      · rintro ⟨⟩
        exact ⟨clean, rfl⟩
      · rintro ⟨-, rfl⟩
        rfl
    · next fault => simp [fault]
  refine ⟨?_, ?_, ?_, ?_⟩
  · intro d' hd'
    rw [((ok_iff d').mp hd').2]
    exact ⟨s, a, run⟩
  · intro source v u place s r s' a comes run openly
    exact run.comes_openly openly comes
  · intro d' hd' source members s' comes text t found good straight
    exact run.replaced_at hx hk placed ((ok_iff d').mp hd').1 comes found good straight
  · intro straight d'
    have all : (Task.value root d.root).All w.files
        fun t => (ReferenceGraph.ofLibrary w.files l root d.root).Acyclic t.key := by
      intro text htext t ht
      obtain ⟨entry, path, -, follows⟩ := placed
      have due := (follows text htext t ht).1
      exact hx.acyclic due.1 due.2.1 (straight t (Target.mem_within_iff.mpr ⟨text, htext, ht⟩))
    rw [ok_iff, run.eq_iff_inlines hx hk placed all]
    rfl

namespace Sample

/-- `a` leads to itself and to `leaf`, and `leaf` leads nowhere. -/
def spliced : Document where
  root := .object [
    ("start", ref "#/a"),
    ("a", .object [
      ("leaf", .object [("$ref", .str "#/leaf"), ("title", .str "L")]),
      ("next", ref "#/a")]),
    ("leaf", .object [("type", .str "string")])]

/-- The reference to `leaf` inside `a`. -/
def leaf : List (String × Json) := [("$ref", .str "#/leaf"), ("title", .str "L")]

/-- What looks things up for it. -/
def splicing : Expander := .ofLibrary nowhere.files ⟨[(api, spliced.root)]⟩ api spliced.root

/-- Its expansion comes to that reference after it has entered `a`. -/
theorem comes_leaf : splicing.Comes (.value api spliced.root) .start (.value api (.obj ⟨leaf⟩))
    (splicing.enter "file:api.json#/a" .start) := by
  have first : splicing.Comes (.value api spliced.root) .start (.value api (ref "#/a")) .start :=
    ((Expander.Comes.refl.tail (.members rfl)).tail .member)
  have entered := (first.tail (.reference rfl)).tail (.entered (t := ⟨api, some "/a"⟩) rfl rfl)
  exact ((entered.tail (.found rfl)).tail (.members rfl)).tail .member

theorem straight_leaf :
    Library.Straight ⟨[(api, spliced.root)]⟩ nowhere.files ⟨api, some "/leaf"⟩ := by
  have none : ∀ u, ¬Library.Leads ⟨[(api, spliced.root)]⟩ nowhere.files ⟨api, some "/leaf"⟩ u :=
    fun u hu => List.not_mem_nil (show u ∈ [] from hu)
  intro u v leads onward
  rcases Relation.ReflTransGen.cases_head leads with rfl | ⟨b, step, -⟩
  · obtain ⟨b, step, -⟩ := Relation.TransGen.head'_iff.mp onward
    exact absurd step (none b)
  · exact absurd step (none b)

end Sample

open Sample in
/-- The statement at a description in which a target that reaches no cycle is put in where one leads
back to itself. -/
theorem resolve_inlines_spliced :
    ∃ l, Source.parse nowhere.files "api.json" = .ok api ∧
      Library.ofRoot nowhere api spliced.root = .ok l ∧ l.Signless ∧
      (spliced.resolve nowhere api).toOption.isSome = true ∧
      (∃ s, (Expander.ofLibrary nowhere.files l api spliced.root).Comes (.value api spliced.root)
        .start (.value api (.obj ⟨leaf⟩)) s) ∧
      l.Straight nowhere.files ⟨api, some "/leaf"⟩ ∧ Inlined nowhere api spliced l := by
  have hroot : Source.parse nowhere.files "api.json" = .ok api := rfl
  have hl : Library.ofRoot nowhere api spliced.root = .ok ⟨[(api, spliced.root)]⟩ := rfl
  exact ⟨_, hroot, hl, signless _, by decide +kernel, ⟨_, comes_leaf⟩, straight_leaf,
    resolve_inlines hroot hl (signless _)⟩

end Document

end ToolGateway
