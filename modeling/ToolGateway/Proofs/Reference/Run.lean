import Mathlib.Data.List.Nodup
import ToolGateway.Reference.Expansion

/-!
# Runs of an expansion

What an expansion does, without any bound on how many targets are put into each other. A run ends
with a value and a state, and its trace tells which targets it put in and which components it
entered. The present scope and what is known are a record of the trace (`Runs.scope_eq`,
`Runs.done_eq`), so below one entry no key is put in twice, and every key that is put in is of the
component that was entered (`Runs.recorded`).
-/

namespace ToolGateway

/-- What a run did, the last first. -/
structure Trace where
  /-- The keys whose targets were put in below the present entry. -/
  put : List String
  /-- The keys at which a component was entered, each with what was put in below that entry, the
  key itself included. -/
  scopes : List (String × List String)

namespace Trace

/-- Nothing was done. -/
def nil : Trace := ⟨[], []⟩

/-- One run after another. -/
def next (a b : Trace) : Trace := ⟨b.put ++ a.put, b.scopes ++ a.scopes⟩

/-- A target was put in before the run. -/
def below (key : String) (a : Trace) : Trace := ⟨a.put ++ [key], a.scopes⟩

/-- A component was entered before the run and left after it. -/
def entered (key : String) (a : Trace) : Trace := ⟨[], (key, a.put ++ [key]) :: a.scopes⟩

/-- The keys at which a component was entered. -/
def opened (a : Trace) : List String := a.scopes.map (·.1)

@[simp] theorem opened_nil : nil.opened = [] := rfl

@[simp] theorem opened_next (a b : Trace) : (a.next b).opened = b.opened ++ a.opened :=
  List.map_append

@[simp] theorem opened_entered (key : String) (a : Trace) :
    (a.entered key).opened = key :: a.opened := rfl

end Trace

/-- What is expanded: a value, the items of an array, the members of an object, the members beside a
reference over those of its target, a reference, or the value of a target. -/
inductive Task where
  | value (source : Source) (v : Json)
  | items (source : Source) (items : List Json)
  | members (source : Source) (members : List (String × Json))
  | beside (source : Source) (members : List (String × Json)) (target : Json.Members)
  | reference (source : Source) (text : String)
  | target (t : Target) (reference : String)

namespace Expander

/-- A task of an expansion leads from one state to another one. Items end as an array, members as an
object. -/
inductive Runs (x : Expander) : Task → Expansion → Json → Expansion → Trace → Prop
  | leaf {source : Source} {v : Json} {s : Expansion} (flat : ∀ items, v ≠ .arr items)
      (plain : ∀ members, v ≠ .obj members) : Runs x (.value source v) s v s .nil
  | array {source : Source} {items : List Json} {r : Json} {s s' : Expansion} {a : Trace}
      (run : Runs x (.items source items) s r s' a) : Runs x (.value source (.arr items)) s r s' a
  | object {source : Source} {members : List (String × Json)} {r : Json} {s s' : Expansion}
      {a : Trace} (plain : Json.referenceOf? members = none)
      (run : Runs x (.members source members) s r s' a) :
      Runs x (.value source (.obj ⟨members⟩)) s r s' a
  | overlaid {source : Source} {members : List (String × Json)} {text : String}
      {target : Json.Members} {r : Json} {s s₁ s' : Expansion} {a b : Trace}
      (found : Json.referenceOf? members = some text)
      (run : Runs x (.reference source text) s (.obj target) s₁ a)
      (rest : Runs x (.beside source members target) s₁ r s' b) :
      Runs x (.value source (.obj ⟨members⟩)) s r s' (a.next b)
  | replaced {source : Source} {members : List (String × Json)} {text : String} {r : Json}
      {s s' : Expansion} {a : Trace} (found : Json.referenceOf? members = some text)
      (run : Runs x (.reference source text) s r s' a) (other : ∀ target, r ≠ .obj target) :
      Runs x (.value source (.obj ⟨members⟩)) s r s' a
  | noItem {source : Source} {s : Expansion} : Runs x (.items source []) s (.arr []) s .nil
  | item {source : Source} {v r : Json} {items results : List Json} {s s₁ s' : Expansion}
      {a b : Trace} (run : Runs x (.value source v) s r s₁ a)
      (rest : Runs x (.items source items) s₁ (.arr results) s' b) :
      Runs x (.items source (v :: items)) s (.arr (r :: results)) s' (a.next b)
  | noMember {source : Source} {s : Expansion} : Runs x (.members source []) s (.obj ⟨[]⟩) s .nil
  | member {source : Source} {k : String} {v r : Json} {members results : List (String × Json)}
      {s s₁ s' : Expansion} {a b : Trace} (run : Runs x (.value source v) s r s₁ a)
      (rest : Runs x (.members source members) s₁ (.obj ⟨results⟩) s' b) :
      Runs x (.members source ((k, v) :: members)) s (.obj ⟨(k, r) :: results⟩) s' (a.next b)
  | nothingBeside {source : Source} {target : Json.Members} {s : Expansion} :
      Runs x (.beside source [] target) s (.obj target) s .nil
  | skipped {source : Source} {v r : Json} {members : List (String × Json)} {target : Json.Members}
      {s s' : Expansion} {a : Trace} (rest : Runs x (.beside source members target) s r s' a) :
      Runs x (.beside source (("$ref", v) :: members) target) s r s' a
  | set {source : Source} {k : String} {v r r' : Json} {members : List (String × Json)}
      {target : Json.Members} {s s₁ s' : Expansion} {a b : Trace} (other : k ≠ "$ref")
      (run : Runs x (.value source v) s r s₁ a)
      (rest : Runs x (.beside source members (target.insert k r)) s₁ r' s' b) :
      Runs x (.beside source ((k, v) :: members) target) s r' s' (a.next b)
  | broken {source : Source} {text : String} {e : Error} {s : Expansion}
      (bad : Target.parse x.files source text = .error e) :
      Runs x (.reference source text) s nothing (s.fail e.message) .nil
  | cut {source : Source} {text : String} {t : Target} {s : Expansion}
      (good : Target.parse x.files source text = .ok t) (step : x.step s t.key = .cut) :
      Runs x (.reference source text) s nothing s .nil
  | deeper {source : Source} {text : String} {t : Target} {r : Json} {s s' : Expansion} {a : Trace}
      (good : Target.parse x.files source text = .ok t) (step : x.step s t.key = .below)
      (run : Runs x (.target t text) (visit t.key s) r s' a) :
      Runs x (.reference source text) s r s' (a.below t.key)
  | known {source : Source} {text : String} {t : Target} {r : Json} {s : Expansion}
      (good : Target.parse x.files source text = .ok t) (step : x.step s t.key = .known r) :
      Runs x (.reference source text) s r s .nil
  | entered {source : Source} {text : String} {t : Target} {r : Json} {s s' : Expansion} {a : Trace}
      (good : Target.parse x.files source text = .ok t) (step : x.step s t.key = .enter)
      (run : Runs x (.target t text) (x.enter t.key s) r s' a) :
      Runs x (.reference source text) s r (leave s.scope t.key r s') (a.entered t.key)
  | missing {t : Target} {text : String} {s : Expansion} (absent : x.library.find? t = none) :
      Runs x (.target t text) s nothing
        (s.fail s!"Unresolved $ref '{text}' (doc {t.source.display})") .nil
  | found {t : Target} {text : String} {source : Source} {v r : Json} {s s' : Expansion} {a : Trace}
      (present : x.library.find? t = some (source, v))
      (run : Runs x (.value source v) s r s' a) : Runs x (.target t text) s r s' a

variable {x : Expander}

/-! ### Steps -/

/-- A key is in the component that was entered last. -/
def Inside (x : Expander) (s : Expansion) (key : String) (scope : Scope) : Prop :=
  s.scope = some scope ∧ (x.components.lookup key).isSome = true ∧
    scope.component = x.components.lookup key

/-- What must hold for a step to be taken. -/
def Taken (x : Expander) (s : Expansion) (key : String) : Step → Prop
  | .cut => ∃ scope, x.Inside s key scope ∧ key ∈ scope.visited
  | .below => ∃ scope, x.Inside s key scope ∧ key ∉ scope.visited
  | .known v => (∀ scope, ¬x.Inside s key scope) ∧ s.done.lookup key = some v
  | .enter => (∀ scope, ¬x.Inside s key scope) ∧ s.done.lookup key = none

theorem step_spec (x : Expander) (s : Expansion) (key : String) : x.Taken s key (x.step s key) := by
  unfold step
  cases hs : s.scope with
  | none =>
    have outside : ∀ scope, ¬x.Inside s key scope := by
      rintro scope ⟨h, -⟩
      rw [hs] at h
      cases h
    cases hd : s.done.lookup key with
    | some v => exact ⟨outside, hd⟩
    | none => exact ⟨outside, hd⟩
  | some scope =>
    dsimp only
    split
    · next h =>
      rw [Bool.and_eq_true, beq_iff_eq] at h
      split
      · next hv => exact ⟨scope, ⟨hs, h⟩, List.contains_iff_mem.mp hv⟩
      · next hv => exact ⟨scope, ⟨hs, h⟩, fun hm => hv (List.contains_iff_mem.mpr hm)⟩
    · next h =>
      have outside : ∀ scope, ¬x.Inside s key scope := by
        rintro other ⟨ho, inside⟩
        rw [hs] at ho
        cases ho
        exact h (by rw [Bool.and_eq_true, beq_iff_eq]; exact inside)
      cases hd : s.done.lookup key with
      | some v => exact ⟨outside, hd⟩
      | none => exact ⟨outside, hd⟩

theorem taken {s : Expansion} {key : String} {step : Step} (h : x.step s key = step) :
    x.Taken s key step := h ▸ x.step_spec s key

namespace Runs

variable {task : Task} {s s' : Expansion} {r : Json} {a : Trace}

/-! ### The trace is on record -/

/-- A run leaves the present scope as it was, but for the keys it put in there. -/
theorem scope_eq (h : Runs x task s r s' a) :
    s'.scope = s.scope.map fun scope => { scope with visited := a.put ++ scope.visited } := by
  induction h with
  | array _ ih | object _ _ ih | replaced _ _ _ ih | skipped _ ih | found _ _ ih => exact ih
  | overlaid _ _ _ ih ih' | item _ _ ih ih' | member _ _ ih ih' | set _ _ _ ih ih' =>
    rw [ih', ih, Option.map_map]
    congr 1
    funext scope
    simp [Trace.next]
  -- The key put in before the run is the oldest of the trace.
  | deeper _ _ _ ih =>
    rw [ih, visit, Option.map_map]
    congr 1
    funext scope
    simp [Trace.below]
  -- An entry is left with the scope it came from.
  | entered _ _ _ _ => simp [leave, Trace.entered]
  | _ => simp [Trace.nil, Expansion.fail]

/-- What gets known are the keys at which a component was entered. -/
theorem done_eq (h : Runs x task s r s' a) :
    s'.done.map (·.1) = a.opened ++ s.done.map (·.1) := by
  induction h with
  | array _ ih | object _ _ ih | replaced _ _ _ ih | skipped _ ih | found _ _ ih | deeper _ _ _ ih =>
    exact ih
  | overlaid _ _ _ ih ih' | item _ _ ih ih' | member _ _ ih ih' | set _ _ _ ih ih' =>
    rw [ih', ih, Trace.opened_next, List.append_assoc]
  | entered _ _ _ ih => exact congrArg (_ :: ·) ih
  | _ => rfl

/-- Keys that are put in below an entry are of its component, and none of them twice. -/
def Entry (x : Expander) (e : String × List String) : Prop :=
  e.2.Nodup ∧ ∀ k ∈ e.2, x.components.lookup k = x.components.lookup e.1

/-- The present scope holds no key twice, and only keys of its component. -/
def Kept (x : Expander) (s : Expansion) : Prop :=
  ∀ scope, s.scope = some scope →
    scope.visited.Nodup ∧ ∀ k ∈ scope.visited, x.components.lookup k = scope.component

theorem Kept.visit {key : String} {scope : Scope} (hs : Kept x s) (inside : x.Inside s key scope)
    (fresh : key ∉ scope.visited) : Kept x (visit key s) := by
  obtain ⟨here, -, component⟩ := inside
  obtain ⟨nodup, same⟩ := hs scope here
  intro visited hv
  rw [Expander.visit, here] at hv
  cases hv
  exact ⟨List.nodup_cons.mpr ⟨fresh, nodup⟩, List.forall_mem_cons.mpr ⟨component.symm, same⟩⟩

theorem kept_enter (x : Expander) (key : String) (s : Expansion) : Kept x (x.enter key s) := by
  intro scope h
  cases h
  refine ⟨List.nodup_singleton key, ?_⟩
  intro k hk
  rw [List.mem_singleton.mp hk]

theorem recorded (h : Runs x task s r s' a) (hs : Kept x s) :
    Kept x s' ∧ ∀ e ∈ a.scopes, Entry x e := by
  induction h with
  | array _ ih | object _ _ ih | replaced _ _ _ ih | skipped _ ih | found _ _ ih => exact ih hs
  | overlaid _ _ _ ih ih' | item _ _ ih ih' | member _ _ ih ih' | set _ _ _ ih ih' =>
    obtain ⟨hs, before⟩ := ih hs
    obtain ⟨hs, after⟩ := ih' hs
    refine ⟨hs, fun e he => ?_⟩
    rcases List.mem_append.mp he with he | he
    · exact after e he
    · exact before e he
  | deeper _ step _ ih =>
    obtain ⟨scope, inside, fresh⟩ := taken step
    exact ih (hs.visit inside fresh)
  | @entered _ _ t _ s _ _ _ _ run ih =>
    -- The scope that was entered is gone afterwards; its last state is the entry of the trace.
    obtain ⟨kept, inner⟩ := ih (kept_enter x t.key s)
    refine ⟨hs, ?_⟩
    rw [Trace.entered, List.forall_mem_cons]
    exact ⟨kept _ run.scope_eq, inner⟩
  | _ => exact ⟨hs, by simp [Trace.nil]⟩

/-! ### Only one run -/

/-- What a run of a reference does after a step. -/
def After (x : Expander) (t : Target) (text : String) (s : Expansion) (r : Json) (s' : Expansion)
    (a : Trace) : Step → Prop
  | .cut => r = nothing ∧ s' = s ∧ a = .nil
  | .below => ∃ b, Runs x (.target t text) (visit t.key s) r s' b ∧ a = b.below t.key
  | .known v => r = v ∧ s' = s ∧ a = .nil
  | .enter => ∃ s₁ b, Runs x (.target t text) (x.enter t.key s) r s₁ b ∧
      s' = leave s.scope t.key r s₁ ∧ a = b.entered t.key

theorem of_reference {source : Source} {text : String} {t : Target}
    (h : Runs x (.reference source text) s r s' a)
    (good : Target.parse x.files source text = .ok t) :
    After x t text s r s' a (x.step s t.key) := by
  cases h with
  | broken bad =>
    rw [good] at bad
    cases bad
  | cut again step | known again step =>
    rw [good] at again
    cases again
    rw [step]
    exact ⟨rfl, rfl, rfl⟩
  | deeper again step run =>
    rw [good] at again
    cases again
    rw [step]
    exact ⟨_, run, rfl⟩
  | entered again step run =>
    rw [good] at again
    cases again
    rw [step]
    exact ⟨_, _, run, rfl, rfl⟩

/-- There is one run of a task from a state. -/
theorem deterministic (h : Runs x task s r s' a) {r₂ : Json} {s₂ : Expansion} {a₂ : Trace}
    (h₂ : Runs x task s r₂ s₂ a₂) : r = r₂ ∧ s' = s₂ ∧ a = a₂ := by
  induction h generalizing r₂ s₂ a₂ with
  | leaf flat plain =>
    cases h₂ with
    | leaf _ _ => exact ⟨rfl, rfl, rfl⟩
    | array _ => exact absurd rfl (flat _)
    | object _ _ | overlaid _ _ _ | replaced _ _ _ => exact absurd rfl (plain _)
  | array _ ih =>
    cases h₂ with
    | leaf flat _ => exact absurd rfl (flat _)
    | array run => exact ih run
  | object none _ ih =>
    cases h₂ with
    | leaf _ plain => exact absurd rfl (plain _)
    | object _ run => exact ih run
    | overlaid found _ _ | replaced found _ _ =>
      rw [none] at found
      cases found
  | overlaid found _ _ ih ih' =>
    cases h₂ with
    | leaf _ plain => exact absurd rfl (plain _)
    | object none _ =>
      rw [none] at found
      cases found
    | overlaid again run rest =>
      rw [found] at again
      cases again
      obtain ⟨same, rfl, rfl⟩ := ih run
      cases same
      obtain ⟨rfl, rfl, rfl⟩ := ih' rest
      exact ⟨rfl, rfl, rfl⟩
    | replaced again run other =>
      rw [found] at again
      cases again
      exact absurd (ih run).1.symm (other _)
  | replaced found _ other ih =>
    cases h₂ with
    | leaf _ plain => exact absurd rfl (plain _)
    | object none _ =>
      rw [none] at found
      cases found
    | overlaid again run _ =>
      rw [found] at again
      cases again
      exact absurd (ih run).1 (other _)
    | replaced again run _ =>
      rw [found] at again
      cases again
      exact ih run
  | item _ _ ih ih' =>
    cases h₂ with
    | item run rest =>
      obtain ⟨rfl, rfl, rfl⟩ := ih run
      obtain ⟨same, rfl, rfl⟩ := ih' rest
      cases same
      exact ⟨rfl, rfl, rfl⟩
  | member _ _ ih ih' =>
    cases h₂ with
    | member run rest =>
      obtain ⟨rfl, rfl, rfl⟩ := ih run
      obtain ⟨same, rfl, rfl⟩ := ih' rest
      cases same
      exact ⟨rfl, rfl, rfl⟩
  | skipped _ ih =>
    cases h₂ with
    | skipped rest => exact ih rest
    | set other _ _ => exact absurd rfl other
  | set other _ _ ih ih' =>
    cases h₂ with
    | skipped _ => exact absurd rfl other
    | set _ run rest =>
      obtain ⟨rfl, rfl, rfl⟩ := ih run
      exact ⟨(ih' rest).1, (ih' rest).2.1, congrArg _ (ih' rest).2.2⟩
  | noItem | noMember | nothingBeside =>
    cases h₂
    exact ⟨rfl, rfl, rfl⟩
  | broken bad =>
    cases h₂ with
    | broken again =>
      rw [bad] at again
      cases again
      exact ⟨rfl, rfl, rfl⟩
    | cut good _ | deeper good _ _ | known good _ | entered good _ _ =>
      rw [bad] at good
      cases good
  -- The state and the key decide on the step, so both runs of a reference take the same one.
  | cut good step | known good step =>
    have end₂ := of_reference h₂ good
    rw [step] at end₂
    obtain ⟨rfl, rfl, rfl⟩ := end₂
    exact ⟨rfl, rfl, rfl⟩
  | deeper good step _ ih =>
    have end₂ := of_reference h₂ good
    rw [step] at end₂
    obtain ⟨b, run, rfl⟩ := end₂
    obtain ⟨rfl, rfl, rfl⟩ := ih run
    exact ⟨rfl, rfl, rfl⟩
  | entered good step _ ih =>
    have end₂ := of_reference h₂ good
    rw [step] at end₂
    obtain ⟨s₁, b, run, rfl, rfl⟩ := end₂
    obtain ⟨rfl, rfl, rfl⟩ := ih run
    exact ⟨rfl, rfl, rfl⟩
  | missing absent =>
    cases h₂ with
    | missing _ => exact ⟨rfl, rfl, rfl⟩
    | found present _ =>
      rw [absent] at present
      cases present
  | found present _ ih =>
    cases h₂ with
    | missing absent =>
      rw [present] at absent
      cases absent
    | found again run =>
      rw [present] at again
      cases again
      exact ih run

end Runs

end Expander

end ToolGateway
