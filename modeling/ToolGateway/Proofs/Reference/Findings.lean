import ToolGateway.Proofs.Reference.Points

/-!
# Findings

A run finds fault with the references whose texts name no target and with those whose targets are
missing, and its faults are the messages of a log of them (`Runs.exists_log`). A missing target
leads nowhere, so it is in a component of its own: it is never cut off or put in below another entry,
and a fault is found with it just when its key is entered (`Placed.step_of_missing`).
-/

namespace ToolGateway

/-- The document of a target, whichever way its path is written, and the place in it. -/
def Target.place (t : Target) : (String ⊕ String) × Option String := (t.source.identity, t.pointer)

/-- What is wrong with a reference: its text names no target, or its target is missing. -/
inductive Finding where
  | malformed (source : Source) (text : String) (e : Error)
  | missing (text : String) (t : Target)

namespace Finding

def message : Finding → String
  | malformed _ _ e => e.message
  | missing text t => s!"Unresolved $ref '{text}' (doc {t.source.display})"

/-- The target that is missing. -/
def target? : Finding → Option Target
  | malformed _ _ _ => none
  | missing _ t => some t

/-- The key of the target that is missing. -/
def key? (f : Finding) : Option String := f.target?.map Target.key

/-- The place where the target is missing. -/
def place? (f : Finding) : Option ((String ⊕ String) × Option String) := f.target?.map Target.place

end Finding

namespace Expander

variable {x : Expander} {g : ReferenceGraph} {task task₁ task₂ task' : Task}
  {s s₁ s' : Expansion} {r : Json} {a b : Trace} {source : Source} {text : String} {t : Target}

/-! ### Points in turn -/

namespace Comes

theorem trans (h : x.Comes task s task₁ s₁) (h' : x.Comes task₁ s₁ task' s') :
    x.Comes task s task' s' := Relation.ReflTransGen.trans h h'

theorem head (call : x.Calls task s task₁ s₁) (h : x.Comes task₁ s₁ task' s') :
    x.Comes task s task' s' := Relation.ReflTransGen.head call h

/-- A point is where the run starts, or a point of what its task hands over to. -/
theorem cases_head (h : x.Comes task s task' s') :
    (task = task' ∧ s = s') ∨
      ∃ task₁ s₁, x.Calls task s task₁ s₁ ∧ x.Comes task₁ s₁ task' s' := by
  rcases Relation.ReflTransGen.cases_head h with same | ⟨⟨task₁, s₁⟩, call, rest⟩
  · cases same
    exact Or.inl ⟨rfl, rfl⟩
  · exact Or.inr ⟨task₁, s₁, call, rest⟩

end Comes

/-- A task comes to a reference. -/
def Meets (x : Expander) (task : Task) (s : Expansion) (source : Source) (text : String) : Prop :=
  ∃ s₁, x.Comes task s (.reference source text) s₁

theorem Meets.head (call : x.Calls task s task₁ s₁) (h : x.Meets task₁ s₁ source text) :
    x.Meets task s source text := h.imp fun _ comes => comes.head call

/-- A task comes to a reference with which this is wrong. -/
def Finds (x : Expander) (task : Task) (s : Expansion) : Finding → Prop
  | .malformed source text e =>
    x.Meets task s source text ∧ Target.parse x.files source text = .error e
  | .missing text t => ∃ source, x.Meets task s source text ∧
      Target.parse x.files source text = .ok t ∧ x.library.find? t = none

theorem Finds.head (call : x.Calls task s task₁ s₁) {f : Finding} (h : x.Finds task₁ s₁ f) :
    x.Finds task s f := by
  cases f with
  | malformed _ _ _ => exact ⟨h.1.head call, h.2⟩
  | missing _ _ =>
    obtain ⟨source, met, wrong⟩ := h
    exact ⟨source, met.head call, wrong⟩

/-! ### Missing targets -/

/-- A key is that of a missing target. -/
def Absent (x : Expander) (key : String) : Prop :=
  ∃ t, x.library.Names x.files t ∧ t.key = key ∧ x.library.find? t = none

/-- A missing target is not in the component that was entered last: it leads nowhere, and the entry
leads to it. -/
theorem Placed.step_of_missing (hx : x.Charted g) (placed : Placed x g (.reference source text) s)
    (good : Target.parse x.files source text = .ok t) (absent : x.library.find? t = none) :
    x.step s t.key = .enter ∨ ∃ v, x.step s t.key = .known v := by
  obtain ⟨entry, path, standing, follows⟩ := placed
  obtain ⟨due, leads⟩ := follows text List.mem_cons_self t good
  have last : g.next t.key = [] := by
    rw [hx.next t due.1 due.2.1, Library.targets, absent]
    rfl
  have outside : ∀ scope, ¬x.Inside s t.key scope := by
    rintro scope ⟨here, -, component⟩
    cases standing with
    | outside none =>
      rw [none] at here
      cases here
    | @inside key _ _ other there mem same _ _ _ _ =>
      rw [there] at here
      cases here
      obtain ⟨-, back⟩ := (hx.lookup_eq_iff mem).mp (same.symm.trans component)
      obtain ⟨next, step, -⟩ := Relation.TransGen.head'_iff.mp (leads key rfl)
      rcases Relation.ReflTransGen.cases_head back with same | ⟨_, away, -⟩
      · rw [← same, last] at step
        cases step
      · rw [last] at away
        cases away
  have taken := x.step_spec s t.key
  cases hs : x.step s t.key with
  | cut | below =>
    rw [hs] at taken
    obtain ⟨scope, inside, -⟩ := taken
    exact absurd inside (outside scope)
  | known v => exact Or.inr ⟨v, rfl⟩
  | enter => exact Or.inl rfl

/-- What is cut off or put in below the present entry is there. -/
theorem Placed.there (hx : x.Charted g) (placed : Placed x g (.reference source text) s)
    (good : Target.parse x.files source text = .ok t)
    (step : x.step s t.key = .cut ∨ x.step s t.key = .below) : x.library.find? t ≠ none := by
  intro absent
  rcases placed.step_of_missing hx good absent with other | ⟨v, other⟩ <;>
  · rw [other] at step
    rcases step with same | same <;> cases same

/-- A log holds a reference that names no target, and the key of a missing target is known. -/
def Reported (x : Expander) (log : List Finding) (known : List String) (source : Source)
    (text : String) : Prop :=
  (∀ e, Target.parse x.files source text = .error e → .malformed source text e ∈ log) ∧
    ∀ t, Target.parse x.files source text = .ok t → x.library.find? t = none → t.key ∈ known

theorem Reported.mono {log log' : List Finding} {known known' : List String}
    (h : Reported x log known source text) (logs : log ⊆ log') (keys : known ⊆ known') :
    Reported x log' known' source text :=
  ⟨fun e bad => logs (h.1 e bad), fun t good absent => keys (h.2 t good absent)⟩

/-- The same of a task that is a reference. -/
def Told (x : Expander) (log : List Finding) (known : List String) : Task → Prop
  | .reference source text => Reported x log known source text
  | _ => True

/-- The log of a run: its messages are the faults that the run adds, its findings are of references
that the run comes to, all of them are reported, and the missing keys among those entered are logged
in turn. -/
structure Logged (x : Expander) (task : Task) (s s' : Expansion) (a : Trace) (log : List Finding) :
    Prop where
  faults : s'.faults = s.faults ++ log.map Finding.message
  met : ∀ f ∈ log, x.Finds task s f
  reported : ∀ {source text}, x.Meets task s source text →
    Reported x log (a.opened ++ s.done.map (·.1)) source text
  turns : (log.filterMap Finding.key?).reverse.Sublist a.opened
  all : ∀ k ∈ a.opened, x.Absent k → k ∈ log.filterMap Finding.key?

namespace Logged

variable {log log' : List Finding}

/-- A task that hands over to no other one finds no fault. -/
theorem quiet (only : ∀ task₁ s₁, ¬x.Calls task s task₁ s₁)
    (self : Told x [] (s.done.map (·.1)) task) : Logged x task s s .nil [] where
  faults := (List.append_nil _).symm
  met := by simp
  reported := by
    rintro source text ⟨s₁, comes⟩
    rcases comes.cases_head with ⟨same, -⟩ | ⟨task₁, s₁, call, -⟩
    · rw [same] at self
      exact self
    · exact absurd call (only task₁ s₁)
  turns := .slnil
  all := by simp

/-- A task that hands over to two other tasks, one after the other, finds the faults of both. -/
theorem next (h : Logged x task₁ s s₁ a log) (h' : Logged x task₂ s₁ s' b log')
    (known : s₁.done.map (·.1) = a.opened ++ s.done.map (·.1)) (call₁ : x.Calls task s task₁ s)
    (call₂ : x.Calls task s task₂ s₁)
    (only : ∀ task' s', x.Calls task s task' s' →
      (task' = task₁ ∧ s' = s) ∨ (task' = task₂ ∧ s' = s₁))
    (self : Told x [] [] task) : Logged x task s s' (a.next b) (log ++ log') where
  faults := by rw [h'.faults, h.faults, List.map_append, List.append_assoc]
  met f hf := by
    rcases List.mem_append.mp hf with hf | hf
    · exact (h.met f hf).head call₁
    · exact (h'.met f hf).head call₂
  reported := by
    rintro source text ⟨s₃, comes⟩
    rw [Trace.opened_next]
    rcases comes.cases_head with ⟨same, -⟩ | ⟨task', s', call, rest⟩
    · rw [same] at self
      exact Reported.mono self (List.nil_subset _) (List.nil_subset _)
    · rcases only task' s' call with ⟨rfl, rfl⟩ | ⟨rfl, rfl⟩
      · refine (h.reported ⟨s₃, rest⟩).mono (List.subset_append_left _ _) ?_
        rw [List.append_assoc]
        exact List.subset_append_right _ _
      · refine (h'.reported ⟨s₃, rest⟩).mono (List.subset_append_right _ _) ?_
        rw [known, List.append_assoc]
        exact fun k hk => hk
  turns := by
    rw [List.filterMap_append, List.reverse_append, Trace.opened_next]
    exact h'.turns.append h.turns
  all k hk absent := by
    rw [Trace.opened_next] at hk
    rw [List.filterMap_append]
    rcases List.mem_append.mp hk with hk | hk
    · exact List.mem_append_right _ (h'.all k hk absent)
    · exact List.mem_append_left _ (h.all k hk absent)

end Logged

/-- A reference hands over to its target only. -/
theorem Calls.of_reference (call : x.Calls (.reference source text) s task₁ s₁)
    (good : Target.parse x.files source text = .ok t) :
    (x.step s t.key = .below ∧ task₁ = .target t text ∧ s₁ = visit t.key s) ∨
      (x.step s t.key = .enter ∧ task₁ = .target t text ∧ s₁ = x.enter t.key s) := by
  cases call with
  | deeper again step =>
    rw [good] at again
    cases again
    exact Or.inl ⟨step, rfl, rfl⟩
  | entered again step =>
    rw [good] at again
    cases again
    exact Or.inr ⟨step, rfl, rfl⟩

/-! ### Findings -/

section Reference

variable {e : Error}

theorem Logged.broken (bad : Target.parse x.files source text = .error e) :
    Logged x (.reference source text) s (s.fail e.message) .nil [.malformed source text e] where
  faults := rfl
  met := by
    intro f hf
    rw [List.mem_singleton.mp hf]
    exact ⟨⟨s, .refl⟩, bad⟩
  reported := by
    rintro source text ⟨s₁, comes⟩
    rcases comes.cases_head with ⟨same, -⟩ | ⟨task₁, s₁, call, -⟩
    · cases same
      refine ⟨fun e again => ?_, fun t good => ?_⟩
      · rw [bad] at again
        cases again
        exact List.mem_cons_self
      · rw [bad] at good
        cases good
    · cases call with
      | deeper good _ | entered good _ =>
        rw [bad] at good
        cases good
  turns := .slnil
  all := nofun

/-- A missing target is logged when its key is entered. -/
theorem Logged.unresolved (good : Target.parse x.files source text = .ok t)
    (step : x.step s t.key = .enter) (absent : x.library.find? t = none)
    (run : Runs x (.target t text) (x.enter t.key s) r s' a) :
    Logged x (.reference source text) s (leave s.scope t.key r s') (a.entered t.key)
      [.missing text t] := by
  cases run with
  | found there _ =>
    rw [absent] at there
    cases there
  | missing _ =>
    refine ⟨rfl, ?_, ?_, ?_, ?_⟩
    · intro f hf
      rw [List.mem_singleton.mp hf]
      exact ⟨source, ⟨s, .refl⟩, good, absent⟩
    · rintro source text ⟨s₁, comes⟩
      rcases comes.cases_head with ⟨same, -⟩ | ⟨task₁, s₁, call, rest⟩
      · cases same
        refine ⟨fun e bad => ?_, fun u again _ => ?_⟩
        · rw [good] at bad
          cases bad
        · rw [good] at again
          cases again
          exact List.mem_cons_self
      -- The only call is that to the target, and there is nothing below it.
      · cases call with
        | deeper again other =>
          rw [good] at again
          cases again
          rw [step] at other
          cases other
        | entered again _ =>
          rw [good] at again
          cases again
          rcases rest.cases_head with ⟨⟨⟩, -⟩ | ⟨_, _, call, -⟩
          cases call with
          | found there =>
            rw [absent] at there
            cases there
    · exact .refl _
    · intro k hk _
      exact hk

end Reference

end Expander

end ToolGateway
