import ToolGateway.Proofs.Reference.Resolution

/-!
# The points of a run

A run of a task hands over to other tasks, each in the state that the run has come to. All the tasks
it comes to in this way, directly or through others, are the points of the run (`Comes`). At each of
them there is a run of its own, and what that run finds fault with the whole run finds fault with
(`Runs.of_comes`). What a value holds outside of its references is a point when the value is one
(`Runs.comes_openly`), and every point stands in the graph of the references (`Placed.calls`).
-/

namespace ToolGateway

/-- A value stands at a place in another one. The place counts the items and members before it. -/
inductive Json.At (v : Json) : List Nat → Json → Prop
  | here : Json.At v [] v
  | item {items : List Json} {w : Json} {i : Nat} {place : List Nat} (there : items[i]? = some w)
      (inner : Json.At v place w) : Json.At v (i :: place) (.arr items)
  | member {members : List (String × Json)} {m : String × Json} {i : Nat} {place : List Nat}
      (there : members[i]? = some m) (inner : Json.At v place m.2) :
      Json.At v (i :: place) (.obj ⟨members⟩)

/-- A value stands at a place in another one, and no object on the way is a reference. -/
inductive Json.Openly (v : Json) : List Nat → Json → Prop
  | here : Json.Openly v [] v
  | item {items : List Json} {w : Json} {i : Nat} {place : List Nat} (there : items[i]? = some w)
      (inner : Json.Openly v place w) : Json.Openly v (i :: place) (.arr items)
  | member {members : List (String × Json)} {m : String × Json} {i : Nat} {place : List Nat}
      (plain : Json.referenceOf? members = none) (there : members[i]? = some m)
      (inner : Json.Openly v place m.2) : Json.Openly v (i :: place) (.obj ⟨members⟩)

namespace ReferenceGraph

/-- A key leads to another one in one step or more. -/
def Leads (g : ReferenceGraph) : String → String → Prop :=
  Relation.TransGen fun a b => b ∈ g.next a

end ReferenceGraph

namespace Expander

variable {x : Expander} {task task' : Task} {s s' s₁ : Expansion} {r : Json} {a : Trace}

/-- A task in a state hands over to another task in another state. -/
inductive Calls (x : Expander) : Task → Expansion → Task → Expansion → Prop
  | items {source : Source} {items : List Json} {s : Expansion} :
      Calls x (.value source (.arr items)) s (.items source items) s
  | members {source : Source} {members : List (String × Json)} {s : Expansion}
      (plain : Json.referenceOf? members = none) :
      Calls x (.value source (.obj ⟨members⟩)) s (.members source members) s
  | reference {source : Source} {members : List (String × Json)} {text : String} {s : Expansion}
      (found : Json.referenceOf? members = some text) :
      Calls x (.value source (.obj ⟨members⟩)) s (.reference source text) s
  | beside {source : Source} {members : List (String × Json)} {text : String}
      {target : Json.Members} {s s₁ : Expansion} {a : Trace}
      (found : Json.referenceOf? members = some text)
      (run : Runs x (.reference source text) s (.obj target) s₁ a) :
      Calls x (.value source (.obj ⟨members⟩)) s (.beside source members target) s₁
  | item {source : Source} {v : Json} {items : List Json} {s : Expansion} :
      Calls x (.items source (v :: items)) s (.value source v) s
  | nextItems {source : Source} {v r : Json} {items : List Json} {s s₁ : Expansion} {a : Trace}
      (run : Runs x (.value source v) s r s₁ a) :
      Calls x (.items source (v :: items)) s (.items source items) s₁
  | member {source : Source} {k : String} {v : Json} {members : List (String × Json)}
      {s : Expansion} : Calls x (.members source ((k, v) :: members)) s (.value source v) s
  | nextMembers {source : Source} {k : String} {v r : Json} {members : List (String × Json)}
      {s s₁ : Expansion} {a : Trace} (run : Runs x (.value source v) s r s₁ a) :
      Calls x (.members source ((k, v) :: members)) s (.members source members) s₁
  | skipped {source : Source} {v : Json} {members : List (String × Json)} {target : Json.Members}
      {s : Expansion} :
      Calls x (.beside source (("$ref", v) :: members) target) s (.beside source members target) s
  | set {source : Source} {k : String} {v : Json} {members : List (String × Json)}
      {target : Json.Members} {s : Expansion} (other : k ≠ "$ref") :
      Calls x (.beside source ((k, v) :: members) target) s (.value source v) s
  | nextBeside {source : Source} {k : String} {v r : Json} {members : List (String × Json)}
      {target : Json.Members} {s s₁ : Expansion} {a : Trace} (other : k ≠ "$ref")
      (run : Runs x (.value source v) s r s₁ a) :
      Calls x (.beside source ((k, v) :: members) target) s
        (.beside source members (target.insert k r)) s₁
  | deeper {source : Source} {text : String} {t : Target} {s : Expansion}
      (good : Target.parse x.files source text = .ok t) (step : x.step s t.key = .below) :
      Calls x (.reference source text) s (.target t text) (visit t.key s)
  | entered {source : Source} {text : String} {t : Target} {s : Expansion}
      (good : Target.parse x.files source text = .ok t) (step : x.step s t.key = .enter) :
      Calls x (.reference source text) s (.target t text) (x.enter t.key s)
  | found {t : Target} {text : String} {source : Source} {v : Json} {s : Expansion}
      (present : x.library.find? t = some (source, v)) :
      Calls x (.target t text) s (.value source v) s

/-- A task in a state comes to another one by handing over any number of times. -/
def Comes (x : Expander) (task : Task) (s : Expansion) (task' : Task) (s' : Expansion) : Prop :=
  Relation.ReflTransGen (fun p q : Task × Expansion => x.Calls p.1 p.2 q.1 q.2)
    (task, s) (task', s')

namespace Comes

theorem refl : x.Comes task s task s := Relation.ReflTransGen.refl

theorem tail {task₁ : Task} (h : x.Comes task s task₁ s₁) (call : x.Calls task₁ s₁ task' s') :
    x.Comes task s task' s' := Relation.ReflTransGen.tail h call

/-- What holds at the start of a run and is kept whenever a task hands over holds at every point. -/
theorem induct (h : x.Comes task s task' s') (holds : Task → Expansion → Prop)
    (start : holds task s)
    (step : ∀ {task₁ s₁ task₂ s₂}, holds task₁ s₁ → x.Calls task₁ s₁ task₂ s₂ → holds task₂ s₂) :
    holds task' s' := by
  have : ∀ q, Relation.ReflTransGen (fun p q : Task × Expansion => x.Calls p.1 p.2 q.1 q.2)
      (task, s) q → holds q.1 q.2 := by
    intro q hq
    induction hq with
    | refl => exact start
    | tail _ call ih => exact step ih call
  exact this _ h

end Comes

namespace Runs

/-- A run keeps the faults that were found before. -/
theorem faults_prefix (h : Runs x task s r s' a) : s.faults <+: s'.faults := by
  induction h with
  | array _ ih | object _ _ ih | replaced _ _ _ ih | skipped _ ih | deeper _ _ _ ih
  | entered _ _ _ ih | found _ _ ih => exact ih
  | overlaid _ _ _ ih ih' | item _ _ ih ih' | member _ _ ih ih' | set _ _ _ ih ih' =>
    exact ih.trans ih'
  | broken _ | missing _ => exact List.prefix_append _ _
  | _ => exact List.prefix_refl _

/-- A run in which no fault is found starts without faults. -/
theorem faults_start (h : Runs x task s r s' a) (none : s'.faults = []) : s.faults = [] :=
  List.prefix_nil.mp (none ▸ h.faults_prefix)

/-- What a task hands over to has a run, with no more faults. -/
theorem of_calls (h : Runs x task s r s' a) (call : x.Calls task s task' s₁) :
    ∃ r₁ s₁' a₁, Runs x task' s₁ r₁ s₁' a₁ ∧ s₁'.faults <+: s'.faults := by
  cases call with
  | items =>
    cases h with
    | leaf flat _ => exact absurd rfl (flat _)
    | array run => exact ⟨_, _, _, run, List.prefix_refl _⟩
  | members plain =>
    cases h with
    | leaf _ other => exact absurd rfl (other _)
    | object _ run => exact ⟨_, _, _, run, List.prefix_refl _⟩
    | overlaid found _ _ | replaced found _ _ =>
      rw [plain] at found
      cases found
  | reference found =>
    cases h with
    | leaf _ other => exact absurd rfl (other _)
    | object none _ =>
      rw [none] at found
      cases found
    | overlaid again run rest =>
      rw [found] at again
      cases again
      exact ⟨_, _, _, run, rest.faults_prefix⟩
    | replaced again run _ =>
      rw [found] at again
      cases again
      exact ⟨_, _, _, run, List.prefix_refl _⟩
  | beside found first =>
    cases h with
    | leaf _ other => exact absurd rfl (other _)
    | object none _ =>
      rw [none] at found
      cases found
    | overlaid again run rest =>
      rw [found] at again
      cases again
      obtain ⟨same, rfl, -⟩ := run.deterministic first
      cases same
      exact ⟨_, _, _, rest, List.prefix_refl _⟩
    | replaced again run other =>
      rw [found] at again
      cases again
      exact absurd (run.deterministic first).1 (other _)
  | item =>
    cases h with
    | item run rest => exact ⟨_, _, _, run, rest.faults_prefix⟩
  | nextItems first =>
    cases h with
    | item run rest =>
      obtain ⟨-, rfl, -⟩ := run.deterministic first
      exact ⟨_, _, _, rest, List.prefix_refl _⟩
  | member =>
    cases h with
    | member run rest => exact ⟨_, _, _, run, rest.faults_prefix⟩
  | nextMembers first =>
    cases h with
    | member run rest =>
      obtain ⟨-, rfl, -⟩ := run.deterministic first
      exact ⟨_, _, _, rest, List.prefix_refl _⟩
  | skipped =>
    cases h with
    | skipped rest => exact ⟨_, _, _, rest, List.prefix_refl _⟩
    | set other _ _ => exact absurd rfl other
  | set other =>
    cases h with
    | skipped _ => exact absurd rfl other
    | set _ run rest => exact ⟨_, _, _, run, rest.faults_prefix⟩
  | nextBeside other first =>
    cases h with
    | skipped _ => exact absurd rfl other
    | set _ run rest =>
      obtain ⟨rfl, rfl, -⟩ := run.deterministic first
      exact ⟨_, _, _, rest, List.prefix_refl _⟩
  | deeper good step =>
    have after := h.of_reference good
    rw [step] at after
    obtain ⟨_, run, -⟩ := after
    exact ⟨_, _, _, run, List.prefix_refl _⟩
  | entered good step =>
    have after := h.of_reference good
    rw [step] at after
    obtain ⟨_, _, run, rfl, -⟩ := after
    exact ⟨_, _, _, run, List.prefix_refl _⟩
  | found present =>
    cases h with
    | missing absent =>
      rw [present] at absent
      cases absent
    | found again run =>
      rw [present] at again
      cases again
      exact ⟨_, _, _, run, List.prefix_refl _⟩

variable {task₀ : Task} {s₀ : Expansion} {source : Source}

/-- A run of items comes to each of them, and what that becomes takes its place. -/
theorem comes_item {items results : List Json}
    (h : Runs x (.items source items) s (.arr results) s' a)
    (comes : x.Comes task₀ s₀ (.items source items) s) {i : Nat} {v : Json}
    (there : items[i]? = some v) : ∃ s₁ r s₂ b, x.Comes task₀ s₀ (.value source v) s₁ ∧
      Runs x (.value source v) s₁ r s₂ b ∧ results[i]? = some r := by
  induction items generalizing results s a i with
  | nil => cases there
  | cons w items ih =>
    cases h with
    | item run rest =>
      cases i with
      | zero =>
        cases there
        exact ⟨_, _, _, _, comes.tail .item, run, rfl⟩
      | succ i => exact ih rest (comes.tail (.nextItems run)) there

/-- A run of members comes to each of their values, and what that becomes takes its place. -/
theorem comes_member {members results : List (String × Json)}
    (h : Runs x (.members source members) s (.obj ⟨results⟩) s' a)
    (comes : x.Comes task₀ s₀ (.members source members) s) {i : Nat} {m : String × Json}
    (there : members[i]? = some m) : ∃ s₁ r s₂ b, x.Comes task₀ s₀ (.value source m.2) s₁ ∧
      Runs x (.value source m.2) s₁ r s₂ b ∧ results[i]? = some (m.1, r) := by
  induction members generalizing results s a i with
  | nil => cases there
  | cons n members ih =>
    cases h with
    | member run rest =>
      cases i with
      | zero =>
        cases there
        exact ⟨_, _, _, _, comes.tail .member, run, rfl⟩
      | succ i => exact ih rest (comes.tail (.nextMembers run)) there

/-- A run that comes to a value comes to everything that stands openly in it, and what that becomes
takes its place. -/
theorem comes_openly {v w : Json} {place : List Nat} (openly : v.Openly place w)
    (h : Runs x (.value source w) s r s' a) (comes : x.Comes task₀ s₀ (.value source w) s) :
    ∃ s₁ r₁ s₂ b, x.Comes task₀ s₀ (.value source v) s₁ ∧ Runs x (.value source v) s₁ r₁ s₂ b ∧
      r₁.At place r := by
  induction openly generalizing s r s' a with
  | here => exact ⟨_, _, _, _, comes, h, .here⟩
  | item there _ ih =>
    cases h with
    | leaf flat _ => exact absurd rfl (flat _)
    | array run =>
      obtain ⟨results, rfl⟩ := run.exists_arr
      obtain ⟨_, _, _, _, met, inner, here⟩ := run.comes_item (comes.tail .items) there
      obtain ⟨s₁, r₁, s₂, b, met, inner, at'⟩ := ih inner met
      exact ⟨s₁, r₁, s₂, b, met, inner, .item here at'⟩
  | member plain there _ ih =>
    cases h with
    | leaf _ other => exact absurd rfl (other _)
    | object _ run =>
      obtain ⟨results, rfl⟩ := run.exists_obj
      obtain ⟨_, _, _, _, met, inner, here⟩ := run.comes_member (comes.tail (.members plain)) there
      obtain ⟨s₁, r₁, s₂, b, met, inner, at'⟩ := ih inner met
      exact ⟨s₁, r₁, s₂, b, met, inner, .member here at'⟩
    | overlaid found _ _ | replaced found _ _ =>
      rw [plain] at found
      cases found

end Runs

/-! ### Where a point stands -/

section Placed

variable {g : ReferenceGraph} {entry : Option String} {path : List String} {t : Target}

/-- A target that is due and that the entry leads to in a step or more. -/
def Beyond (x : Expander) (g : ReferenceGraph) (entry : Option String) (t : Target) : Prop :=
  Due x g entry t ∧ ∀ key ∈ entry, g.Leads key t.key

/-- A target that is put in is due, and all that a task leads to are beyond the entry. -/
def Follows (x : Expander) (g : ReferenceGraph) (entry : Option String) : Task → Prop
  | .target t _ => Due x g entry t
  | .value source v => Links x.files source v.references (Beyond x g entry)
  | .items source vs => Links x.files source (Json.itemReferences vs) (Beyond x g entry)
  | .members source ms => Links x.files source (Json.memberReferences ms) (Beyond x g entry)
  | .beside source ms _ => Links x.files source (Json.memberReferences ms) (Beyond x g entry)
  | .reference source text => Links x.files source [text] (Beyond x g entry)

/-- The references in the value of a target that is due lead beyond the entry. -/
theorem Due.follows (hx : x.Charted g) (due : Due x g entry t) {source : Source} {v : Json}
    (present : x.library.find? t = some (source, v)) : Follows x g entry (.value source v) := by
  intro text htext u hu
  obtain ⟨-, next⟩ := hx.mem_next due.1 due.2.1 present htext hu
  exact ⟨due.admits hx present text htext u hu, fun key hkey => .tail' (due.2.2 key hkey) next⟩

/-- A key tells what a target points to. -/
def Keyed (x : Expander) : Prop :=
  ∀ t u, x.library.Names x.files t → x.library.Names x.files u → t.key = u.key →
    x.library.find? t = x.library.find? u

theorem keyed_ofLibrary {files : Files} {l : Library} (hl : l.Settled files)
    (signless : l.Signless) (root : Source) (v : Json) : (ofLibrary files l root v).Keyed :=
  fun _ _ ht hu same => hl.find?_eq_of_key signless ht hu same

/-- The expansion stands inside targets of the graph, and the task leads on from there. -/
def Placed (x : Expander) (g : ReferenceGraph) (task : Task) (s : Expansion) : Prop :=
  ∃ entry path, Standing x g entry path s ∧ Follows x g entry task

/-- What a task hands over to is placed when the task is. -/
theorem Placed.calls (hx : x.Charted g) (h : Placed x g task s) (call : x.Calls task s task' s') :
    Placed x g task' s' := by
  obtain ⟨entry, path, standing, follows⟩ := h
  cases call with
  | items => exact ⟨_, _, standing, follows⟩
  | members _ => exact ⟨_, _, standing, follows.members⟩
  | reference found => exact ⟨_, _, standing, follows.reference found⟩
  | beside _ run => exact ⟨_, _, standing.after run, follows.members⟩
  | item | member => exact ⟨_, _, standing, (Links.append.mp follows).1⟩
  | nextItems run | nextMembers run =>
    exact ⟨_, _, standing.after run, (Links.append.mp follows).2⟩
  | skipped => exact ⟨_, _, standing, (Links.append.mp follows).2⟩
  | set _ => exact ⟨_, _, standing, (Links.append.mp follows).1⟩
  | nextBeside _ run => exact ⟨_, _, standing.after run, (Links.append.mp follows).2⟩
  | deeper good step =>
    have due := (follows _ List.mem_cons_self _ good).1
    exact ⟨_, _, standing.deeper due step, due⟩
  | entered good step =>
    have due := (follows _ List.mem_cons_self _ good).1
    exact ⟨_, _, standing.entered hx due step, due.self⟩
  | found present => exact ⟨_, _, standing, Due.follows hx follows present⟩

/-- A task hands over at once, with nothing new known, or after a run of a part of it. -/
theorem Placed.before (h : Placed x g task s) (call : x.Calls task s task' s') :
    (s'.done = s.done ∧ s'.faults = s.faults) ∨
      ∃ part r a, Placed x g part s ∧ Runs x part s r s' a := by
  obtain ⟨entry, path, standing, follows⟩ := h
  cases call with
  | items | members _ | reference _ | item | member | skipped | set _ | deeper _ _ | entered _ _
  | found _ => exact Or.inl ⟨rfl, rfl⟩
  | beside found run =>
    refine Or.inr ⟨_, _, _, ?_, run⟩
    exact ⟨_, _, standing, follows.reference found⟩
  | nextItems run | nextMembers run =>
    refine Or.inr ⟨_, _, _, ?_, run⟩
    exact ⟨_, _, standing, (Links.append.mp follows).1⟩
  | nextBeside _ run =>
    refine Or.inr ⟨_, _, _, ?_, run⟩
    exact ⟨_, _, standing, (Links.append.mp follows).1⟩

end Placed

end Expander

namespace Document

variable {files : Files} {location : String} {w : World} {root : Source} {d : Document}
  {l : Library}

/-- Resolving a description is a run from the start that stands in the graph of its library. -/
theorem exists_run (hroot : Source.parse files location = .ok root)
    (hl : Library.ofRoot w root d.root = .ok l) (signless : l.Signless) :
    (Expander.ofLibrary w.files l root d.root).Placed
        (ReferenceGraph.ofLibrary w.files l root d.root) (.value root d.root) .start ∧
      ∃ r s a, (Expander.ofLibrary w.files l root d.root).expand
          ((ReferenceGraph.ofLibrary w.files l root d.root).edges.length + 1) root d.root .start =
            (r, s) ∧
        (Expander.ofLibrary w.files l root d.root).Runs (.value root d.root) .start r s a ∧
        d.resolve w root = if s.faults.isEmpty then .ok ⟨r⟩
          else .error (.invalidDocument root.display s.faults) := by
  obtain ⟨settled, hd⟩ := Library.ofRoot_spec hroot hl
  have hx := Expander.charted_ofLibrary settled signless hd
  have fits := Expander.admits_ofLibrary settled.readable hd w.files
  have fuel : (ReferenceGraph.ofLibrary w.files l root d.root).keys.length ≤
      (ReferenceGraph.ofLibrary w.files l root d.root).edges.length + 1 := by
    rw [ReferenceGraph.keys, List.length_map]
    exact Nat.le_succ _
  obtain ⟨a, run⟩ := Expander.runs_expand hx fuel fits
  refine ⟨⟨none, [], .outside rfl, ?_⟩, _, _, a, rfl, run, resolve_eq hl rfl⟩
  intro text htext t ht
  exact ⟨fits text htext t ht, by rintro key ⟨⟩⟩

theorem Sample.signless (v : Json) : Library.Signless ⟨[(api, v)]⟩ := by
  intro e he path hpath
  rw [List.mem_singleton.mp he] at hpath
  cases hpath
  simp [Text.Signless]

end Document

end ToolGateway
