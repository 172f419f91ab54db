import ToolGateway.Proofs.Reference.Points

/-!
# Plain inlining

The plain way to expand references is to put in what each of them points to, again and again,
without any bookkeeping (`Inlines`). It comes to an end only where no target leads back to itself.
There an expansion does the same: a key that reaches no cycle is never in the component that is
being expanded (`Standing.not_inside`), so its target is neither cut off nor put in below another
entry, and what is remembered of it was expanded plainly (`Runs.inlines`, `exists_run_of_inlines`).
-/

namespace ToolGateway

/-- What a task becomes when every reference is replaced by what it points to, in which every
reference is replaced in turn, relative to the document it stands in. The members beside a reference
are set over what replaced it when that is an object. -/
inductive Inlines (files : Files) (l : Library) : Task → Json → Prop
  | leaf {source : Source} {v : Json} (flat : ∀ items, v ≠ .arr items)
      (plain : ∀ members, v ≠ .obj members) : Inlines files l (.value source v) v
  | array {source : Source} {items : List Json} {r : Json}
      (inner : Inlines files l (.items source items) r) :
      Inlines files l (.value source (.arr items)) r
  | object {source : Source} {members : List (String × Json)} {r : Json}
      (plain : Json.referenceOf? members = none)
      (inner : Inlines files l (.members source members) r) :
      Inlines files l (.value source (.obj ⟨members⟩)) r
  | overlaid {source : Source} {members : List (String × Json)} {text : String}
      {target : Json.Members} {r : Json} (found : Json.referenceOf? members = some text)
      (inner : Inlines files l (.reference source text) (.obj target))
      (rest : Inlines files l (.beside source members target) r) :
      Inlines files l (.value source (.obj ⟨members⟩)) r
  | replaced {source : Source} {members : List (String × Json)} {text : String} {r : Json}
      (found : Json.referenceOf? members = some text)
      (inner : Inlines files l (.reference source text) r) (other : ∀ target, r ≠ .obj target) :
      Inlines files l (.value source (.obj ⟨members⟩)) r
  | noItem {source : Source} : Inlines files l (.items source []) (.arr [])
  | item {source : Source} {v r : Json} {items results : List Json}
      (inner : Inlines files l (.value source v) r)
      (rest : Inlines files l (.items source items) (.arr results)) :
      Inlines files l (.items source (v :: items)) (.arr (r :: results))
  | noMember {source : Source} : Inlines files l (.members source []) (.obj ⟨[]⟩)
  | member {source : Source} {k : String} {v r : Json} {members results : List (String × Json)}
      (inner : Inlines files l (.value source v) r)
      (rest : Inlines files l (.members source members) (.obj ⟨results⟩)) :
      Inlines files l (.members source ((k, v) :: members)) (.obj ⟨(k, r) :: results⟩)
  | nothingBeside {source : Source} {target : Json.Members} :
      Inlines files l (.beside source [] target) (.obj target)
  | skipped {source : Source} {v r : Json} {members : List (String × Json)} {target : Json.Members}
      (rest : Inlines files l (.beside source members target) r) :
      Inlines files l (.beside source (("$ref", v) :: members) target) r
  | set {source : Source} {k : String} {v r r' : Json} {members : List (String × Json)}
      {target : Json.Members} (other : k ≠ "$ref") (inner : Inlines files l (.value source v) r)
      (rest : Inlines files l (.beside source members (target.insert k r)) r') :
      Inlines files l (.beside source ((k, v) :: members) target) r'
  | reference {source : Source} {text : String} {t : Target} {r : Json}
      (good : Target.parse files source text = .ok t) (inner : Inlines files l (.target t text) r) :
      Inlines files l (.reference source text) r
  | target {t : Target} {text : String} {source : Source} {v r : Json}
      (present : l.find? t = some (source, v)) (inner : Inlines files l (.value source v) r) :
      Inlines files l (.target t text) r

namespace Inlines

variable {files : Files} {l : Library} {task : Task} {r r' : Json}

/-- Plain inlining has one result. -/
theorem unique (h : Inlines files l task r) (h' : Inlines files l task r') : r = r' := by
  induction h generalizing r' with
  | leaf flat plain =>
    cases h' with
    | leaf _ _ => rfl
    | array _ => exact absurd rfl (flat _)
    | object _ _ | overlaid _ _ _ | replaced _ _ _ => exact absurd rfl (plain _)
  | array _ ih =>
    cases h' with
    | leaf flat _ => exact absurd rfl (flat _)
    | array inner => exact ih inner
  | object none _ ih =>
    cases h' with
    | leaf _ plain => exact absurd rfl (plain _)
    | object _ inner => exact ih inner
    | overlaid found _ _ | replaced found _ _ =>
      rw [none] at found
      cases found
  | overlaid found _ _ ih ih' =>
    cases h' with
    | leaf _ plain => exact absurd rfl (plain _)
    | object none _ =>
      rw [none] at found
      cases found
    | overlaid again inner rest =>
      rw [found] at again
      cases again
      cases ih inner
      exact ih' rest
    | replaced again inner other =>
      rw [found] at again
      cases again
      exact absurd (ih inner).symm (other _)
  | replaced found _ other ih =>
    cases h' with
    | leaf _ plain => exact absurd rfl (plain _)
    | object none _ =>
      rw [none] at found
      cases found
    | overlaid again inner _ =>
      rw [found] at again
      cases again
      exact absurd (ih inner) (other _)
    | replaced again inner _ =>
      rw [found] at again
      cases again
      exact ih inner
  | noItem | noMember | nothingBeside =>
    cases h'
    rfl
  | item _ _ ih ih' =>
    cases h' with
    | item inner rest =>
      cases ih inner
      cases ih' rest
      rfl
  | member _ _ ih ih' =>
    cases h' with
    | member inner rest =>
      cases ih inner
      cases ih' rest
      rfl
  | skipped _ ih =>
    cases h' with
    | skipped rest => exact ih rest
    | set other _ _ => exact absurd rfl other
  | set other _ _ ih ih' =>
    cases h' with
    | skipped _ => exact absurd rfl other
    | set _ inner rest =>
      cases ih inner
      exact ih' rest
  | reference good _ ih =>
    cases h' with
    | reference again inner =>
      rw [good] at again
      cases again
      exact ih inner
  | target present _ ih =>
    cases h' with
    | target again inner =>
      rw [present] at again
      cases again
      exact ih inner

/-- What a target becomes depends on what it points to alone. -/
theorem target_congr {t u : Target} {text text' : String} (h : Inlines files l (.target t text) r)
    (same : l.find? t = l.find? u) : Inlines files l (.target u text') r := by
  cases h with
  | target present inner => exact .target (same ▸ present) inner

end Inlines

/-! ### Targets that lead to no cycle -/

/-- All targets that a task puts in have a property. -/
def Task.All (files : Files) (p : Target → Prop) : Task → Prop
  | .value source v => Links files source v.references p
  | .items source vs => Links files source (Json.itemReferences vs) p
  | .members source ms => Links files source (Json.memberReferences ms) p
  | .beside source ms _ => Links files source (Json.memberReferences ms) p
  | .reference source text => Links files source [text] p
  | .target t _ => p t

namespace Library

/-- A target leads to those of the references in what it points to. -/
def Leads (l : Library) (files : Files) (t u : Target) : Prop := u ∈ l.targets files t

/-- A target reaches no cycle: none that it leads to, itself included, leads back to its own key. -/
def Straight (l : Library) (files : Files) (t : Target) : Prop :=
  ∀ u v, Relation.ReflTransGen (l.Leads files) t u → Relation.TransGen (l.Leads files) u v →
    v.key ≠ u.key

end Library

namespace ReferenceGraph

/-- No key that a key reaches leads back to itself. -/
def Acyclic (g : ReferenceGraph) (k : String) : Prop := ∀ j, g.Reaches k j → ¬g.Leads j j

theorem Acyclic.next {g : ReferenceGraph} {k b : String} (h : g.Acyclic k) (step : b ∈ g.next k) :
    g.Acyclic b := fun j reach => h j (.head step reach)

end ReferenceGraph

namespace Expander

variable {x : Expander} {g : ReferenceGraph} {entry : Option String} {path : List String}
  {s s' : Expansion} {t : Target}

/-- What can be reached in the graph can be reached from target to target. -/
theorem Charted.exists_leads (hx : x.Charted g) (named : x.library.Names x.files t)
    (mem : t.key ∈ g.keys) {k : String} (reach : g.Reaches t.key k) :
    ∃ u, Relation.ReflTransGen (x.library.Leads x.files) t u ∧ u.key = k ∧
      x.library.Names x.files u ∧ u.key ∈ g.keys := by
  induction reach with
  | refl => exact ⟨t, .refl, rfl, named, mem⟩
  | tail _ step ih =>
    obtain ⟨u, leads, rfl, named, mem⟩ := ih
    have next := step
    rw [hx.next u named mem] at next
    obtain ⟨v, hv, rfl⟩ := List.mem_map.mp next
    exact ⟨v, leads.tail hv, rfl, Library.names_of_mem_targets named hv, hx.closed _ _ step⟩

/-- A target that reaches no cycle has a key that reaches none. -/
theorem Charted.acyclic (hx : x.Charted g) (named : x.library.Names x.files t)
    (mem : t.key ∈ g.keys) (straight : x.library.Straight x.files t) : g.Acyclic t.key := by
  intro j reach cycle
  obtain ⟨u, leads, rfl, hu, hk⟩ := hx.exists_leads named mem reach
  obtain ⟨b, step, back⟩ := Relation.TransGen.head'_iff.mp cycle
  have next := step
  rw [hx.next u hu hk] at next
  obtain ⟨v, hv, rfl⟩ := List.mem_map.mp next
  obtain ⟨w, onward, same, -⟩ :=
    hx.exists_leads (Library.names_of_mem_targets hu hv) (hx.closed _ _ step) back
  exact straight u w leads (.head' hv onward) same

/-- The same references reach no cycle when the target reaches none. -/
theorem Due.all_acyclic (hx : x.Charted g) (due : Due x g entry t) (acyclic : g.Acyclic t.key)
    {source : Source} {v : Json} (present : x.library.find? t = some (source, v)) :
    (Task.value source v).All x.files fun u => g.Acyclic u.key := by
  intro text htext u hu
  exact acyclic.next (hx.mem_next due.1 due.2.1 present htext hu).2

/-- A key that reaches no cycle is not in the present component, since that one leads to it. -/
theorem Standing.not_inside (h : Standing x g entry path s) (hx : x.Charted g)
    (beyond : Beyond x g entry t) (acyclic : g.Acyclic t.key) (scope : Scope) :
    ¬x.Inside s t.key scope := by
  rintro ⟨here, -, component⟩
  cases h with
  | outside none =>
    rw [none] at here
    cases here
  | @inside key _ _ other there mem same _ _ _ _ =>
    rw [here] at there
    cases there
    obtain ⟨-, back⟩ := (hx.lookup_eq_iff mem).mp (same.symm.trans component)
    exact acyclic t.key .refl (.trans_right back (beyond.2 key rfl))

/-- What is known of a key that reaches no cycle was inlined plainly. -/
def Plain (x : Expander) (g : ReferenceGraph) (s : Expansion) : Prop :=
  ∀ e ∈ s.done, g.Acyclic e.1 → ∀ t, x.library.Names x.files t → t.key = e.1 →
    ∀ text, Inlines x.files x.library (.target t text) e.2

/-- What is known of a target that reaches no cycle is what it becomes. -/
theorem Plain.known (hs : Plain x g s) {r : Json} (step : x.step s t.key = .known r)
    (named : x.library.Names x.files t) (acyclic : g.Acyclic t.key) (text : String) :
    Inlines x.files x.library (.target t text) r := by
  obtain ⟨-, found⟩ := taken step
  obtain ⟨before, after, same, -⟩ := List.lookup_eq_some_iff.mp found
  have mem : (t.key, r) ∈ s.done := by simp [same]
  exact hs _ mem acyclic t named rfl text

theorem Plain.leave (hs : Plain x g s) (hk : x.Keyed) (named : x.library.Names x.files t)
    {text : String} {r : Json}
    (h : g.Acyclic t.key → Inlines x.files x.library (.target t text) r) (outer : Option Scope) :
    Plain x g (leave outer t.key r s) := by
  refine List.forall_mem_cons.mpr ⟨?_, hs⟩
  intro acyclic u hu same text'
  exact (h acyclic).target_congr (hk t u named hu same.symm)

/-! ### An expansion inlines plainly -/

/-- A run that finds no fault keeps what is known plain, and it is plain inlining where no reference
reaches a cycle. -/
theorem Runs.inlines (hx : x.Charted g) (hk : x.Keyed) {task : Task} {r : Json} {a : Trace}
    (run : Runs x task s r s' a) (h : Standing x g entry path s) (follows : Follows x g entry task)
    (hs : Plain x g s) (clean : s'.faults = []) :
    Plain x g s' ∧ (task.All x.files (fun t => g.Acyclic t.key) →
      Inlines x.files x.library task r) := by
  induction run generalizing entry path with
  | leaf flat plain => exact ⟨hs, fun _ => .leaf flat plain⟩
  | array _ ih =>
    obtain ⟨hs, inner⟩ := ih h follows hs clean
    exact ⟨hs, fun all => .array (inner all)⟩
  | object plain _ ih =>
    obtain ⟨hs, inner⟩ := ih h follows.members hs clean
    exact ⟨hs, fun all => .object plain (inner all.members)⟩
  | overlaid found run rest ih ih' =>
    obtain ⟨hs, inner⟩ := ih h (follows.reference found) hs (rest.faults_start clean)
    obtain ⟨hs, others⟩ := ih' (h.after run) follows.members hs clean
    exact ⟨hs, fun all => .overlaid found (inner (all.reference found)) (others all.members)⟩
  | replaced found _ other ih =>
    obtain ⟨hs, inner⟩ := ih h (follows.reference found) hs clean
    exact ⟨hs, fun all => .replaced found (inner (all.reference found)) other⟩
  | noItem => exact ⟨hs, fun _ => .noItem⟩
  | item run rest ih ih' =>
    obtain ⟨first, second⟩ := Links.append.mp follows
    obtain ⟨hs, inner⟩ := ih h first hs (rest.faults_start clean)
    obtain ⟨hs, others⟩ := ih' (h.after run) second hs clean
    refine ⟨hs, fun all => ?_⟩
    obtain ⟨first, second⟩ := Links.append.mp all
    exact .item (inner first) (others second)
  | noMember => exact ⟨hs, fun _ => .noMember⟩
  | member run rest ih ih' =>
    obtain ⟨first, second⟩ := Links.append.mp follows
    obtain ⟨hs, inner⟩ := ih h first hs (rest.faults_start clean)
    obtain ⟨hs, others⟩ := ih' (h.after run) second hs clean
    refine ⟨hs, fun all => ?_⟩
    obtain ⟨first, second⟩ := Links.append.mp all
    exact .member (inner first) (others second)
  | nothingBeside => exact ⟨hs, fun _ => .nothingBeside⟩
  | skipped _ ih =>
    obtain ⟨hs, others⟩ := ih h (Links.append.mp follows).2 hs clean
    exact ⟨hs, fun all => .skipped (others (Links.append.mp all).2)⟩
  | set other run rest ih ih' =>
    obtain ⟨first, second⟩ := Links.append.mp follows
    obtain ⟨hs, inner⟩ := ih h first hs (rest.faults_start clean)
    obtain ⟨hs, others⟩ := ih' (h.after run) second hs clean
    refine ⟨hs, fun all => ?_⟩
    obtain ⟨first, second⟩ := Links.append.mp all
    exact .set other (inner first) (others second)
  | broken _ | missing _ => simp [Expansion.fail] at clean
  -- Only a key of the present component is cut off or put in below the entry.
  | cut good step =>
    refine ⟨hs, fun all => ?_⟩
    obtain ⟨scope, inside, -⟩ := taken step
    exact absurd inside (h.not_inside hx (follows _ List.mem_cons_self _ good)
      (all _ List.mem_cons_self _ good) scope)
  | deeper good step _ ih =>
    have beyond := follows _ List.mem_cons_self _ good
    obtain ⟨hs, -⟩ := ih (h.deeper beyond.1 step) beyond.1 hs clean
    refine ⟨hs, fun all => ?_⟩
    obtain ⟨scope, inside, -⟩ := taken step
    exact absurd inside (h.not_inside hx beyond (all _ List.mem_cons_self _ good) scope)
  | known good step =>
    refine ⟨hs, fun all => .reference good ?_⟩
    have beyond := follows _ List.mem_cons_self _ good
    exact hs.known step beyond.1.1 (all _ List.mem_cons_self _ good) _
  | entered good step _ ih =>
    have due := (follows _ List.mem_cons_self _ good).1
    obtain ⟨hs, inner⟩ := ih (h.entered hx due step) due.self hs clean
    refine ⟨hs.leave hk due.1 inner _, fun all => ?_⟩
    exact .reference good (inner (all _ List.mem_cons_self _ good))
  | found present _ ih =>
    obtain ⟨hs, inner⟩ := ih h (follows.follows hx present) hs clean
    exact ⟨hs, fun acyclic => .target present (inner (follows.all_acyclic hx acyclic present))⟩

/-- Where no reference reaches a cycle, what can be inlined plainly is expanded without a fault. -/
theorem exists_run_of_inlines (hx : x.Charted g) (hk : x.Keyed) {task : Task} {r : Json}
    (h : Inlines x.files x.library task r) (all : task.All x.files fun t => g.Acyclic t.key)
    (standing : Standing x g entry path s) (follows : Follows x g entry task) (hs : Plain x g s)
    (clean : s.faults = []) : ∃ s' a, Runs x task s r s' a ∧ s'.faults = [] := by
  induction h generalizing entry path s with
  | leaf flat plain => exact ⟨_, _, .leaf flat plain, clean⟩
  | array _ ih =>
    obtain ⟨_, _, run, clean⟩ := ih all standing follows hs clean
    exact ⟨_, _, .array run, clean⟩
  | object plain _ ih =>
    obtain ⟨_, _, run, clean⟩ := ih all.members standing follows.members hs clean
    exact ⟨_, _, .object plain run, clean⟩
  | overlaid found _ _ ih ih' =>
    have first := follows.reference found
    obtain ⟨_, _, run, clean⟩ := ih (all.reference found) standing first hs clean
    obtain ⟨hs, -⟩ := run.inlines hx hk standing first hs clean
    obtain ⟨_, _, rest, clean⟩ := ih' all.members (standing.after run) follows.members hs clean
    exact ⟨_, _, .overlaid found run rest, clean⟩
  | replaced found _ other ih =>
    have first := follows.reference found
    obtain ⟨_, _, run, clean⟩ := ih (all.reference found) standing first hs clean
    exact ⟨_, _, .replaced found run other, clean⟩
  | noItem => exact ⟨_, _, .noItem, clean⟩
  | item _ _ ih ih' =>
    obtain ⟨all, all'⟩ := Links.append.mp all
    obtain ⟨first, second⟩ := Links.append.mp follows
    obtain ⟨_, _, run, clean⟩ := ih all standing first hs clean
    obtain ⟨hs, -⟩ := run.inlines hx hk standing first hs clean
    obtain ⟨_, _, rest, clean⟩ := ih' all' (standing.after run) second hs clean
    exact ⟨_, _, .item run rest, clean⟩
  | noMember => exact ⟨_, _, .noMember, clean⟩
  | member _ _ ih ih' =>
    obtain ⟨all, all'⟩ := Links.append.mp all
    obtain ⟨first, second⟩ := Links.append.mp follows
    obtain ⟨_, _, run, clean⟩ := ih all standing first hs clean
    obtain ⟨hs, -⟩ := run.inlines hx hk standing first hs clean
    obtain ⟨_, _, rest, clean⟩ := ih' all' (standing.after run) second hs clean
    exact ⟨_, _, .member run rest, clean⟩
  | nothingBeside => exact ⟨_, _, .nothingBeside, clean⟩
  | skipped _ ih =>
    obtain ⟨_, _, rest, clean⟩ :=
      ih (Links.append.mp all).2 standing (Links.append.mp follows).2 hs clean
    exact ⟨_, _, .skipped rest, clean⟩
  | set other _ _ ih ih' =>
    obtain ⟨all, all'⟩ := Links.append.mp all
    obtain ⟨first, second⟩ := Links.append.mp follows
    obtain ⟨_, _, run, clean⟩ := ih all standing first hs clean
    obtain ⟨hs, -⟩ := run.inlines hx hk standing first hs clean
    obtain ⟨_, _, rest, clean⟩ := ih' all' (standing.after run) second hs clean
    exact ⟨_, _, .set other run rest, clean⟩
  | @reference source text t r good inner ih =>
    have beyond := follows _ List.mem_cons_self _ good
    have acyclic := all _ List.mem_cons_self _ good
    have outside := standing.not_inside hx beyond acyclic
    have step := x.step_spec s t.key
    cases hstep : x.step s t.key with
    | cut | below =>
      rw [hstep] at step
      obtain ⟨scope, inside, -⟩ := step
      exact absurd inside (outside scope)
    | known v =>
      cases inner.unique (hs.known hstep beyond.1.1 acyclic text)
      exact ⟨_, _, .known good hstep, clean⟩
    | enter =>
      obtain ⟨_, _, run, clean⟩ :=
        ih acyclic (standing.entered hx beyond.1 hstep) beyond.1.self hs clean
      exact ⟨_, _, .entered good hstep run, clean⟩
  | target present _ ih =>
    obtain ⟨_, _, run, clean⟩ :=
      ih (follows.all_acyclic hx all present) standing (follows.follows hx present) hs clean
    exact ⟨_, _, .found present run, clean⟩

end Expander

end ToolGateway
