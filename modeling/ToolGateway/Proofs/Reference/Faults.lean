import ToolGateway.Proofs.Reference.Findings

/-!
# What resolving finds fault with

Resolving a description meets references, and the log of its run tells what is wrong with them.
What a reference points to is come to there or was come to before: a key that is known or was put in
below the present entry is that of a target that the run came to (`Recalled`, `Placed.follows_met`).
A key is entered once, so every missing target that is met is in the log once, however many
references name it (`resolve_faults`).

A key has the path of a file as it is written, while documents are told apart by what counts about
their paths. So what is missing at one place under two spellings of its path is in the log twice.
-/

namespace ToolGateway

namespace Expander

variable {x : Expander} {g : ReferenceGraph} {task task₁ task₂ task' : Task}
  {s s₁ s' : Expansion} {r : Json} {a b : Trace} {source : Source} {text : String} {t : Target}

/-! ### Nothing is hidden -/

/-- A task comes to a target with a key. -/
def PutIn (x : Expander) (task : Task) (s : Expansion) (key : String) : Prop :=
  ∃ t text s₁, x.Comes task s (.target t text) s₁ ∧ t.key = key

theorem PutIn.head {key : String} (call : x.Calls task s task₁ s₁) (h : x.PutIn task₁ s₁ key) :
    x.PutIn task s key := by
  obtain ⟨t, text, s₂, comes, same⟩ := h
  exact ⟨t, text, s₂, comes.head call, same⟩

theorem PutIn.next (first : ∀ k ∈ a.opened ++ a.put, x.PutIn task₁ s k)
    (second : ∀ k ∈ b.opened ++ b.put, x.PutIn task₂ s₁ k) (call₁ : x.Calls task s task₁ s)
    (call₂ : x.Calls task s task₂ s₁) :
    ∀ k ∈ (a.next b).opened ++ (a.next b).put, x.PutIn task s k := by
  intro k hk
  rw [Trace.opened_next] at hk
  simp only [Trace.next, List.mem_append] at hk
  rcases hk with (hk | hk) | hk | hk
  · exact (second k (List.mem_append_left _ hk)).head call₂
  · exact (first k (List.mem_append_left _ hk)).head call₁
  · exact (second k (List.mem_append_right _ hk)).head call₂
  · exact (first k (List.mem_append_right _ hk)).head call₁

/-- What a run entered and what it put in below the present entry are targets that it came to. -/
theorem Runs.put_in (run : Runs x task s r s' a) : ∀ k ∈ a.opened ++ a.put, x.PutIn task s k := by
  induction run with
  | array _ ih => exact fun k hk => (ih k hk).head .items
  | object plain _ ih => exact fun k hk => (ih k hk).head (.members plain)
  | overlaid found run _ ih ih' => exact PutIn.next ih ih' (.reference found) (.beside found run)
  | replaced found _ _ ih => exact fun k hk => (ih k hk).head (.reference found)
  | item run _ ih ih' => exact PutIn.next ih ih' .item (.nextItems run)
  | member run _ ih ih' => exact PutIn.next ih ih' .member (.nextMembers run)
  | skipped _ ih => exact fun k hk => (ih k hk).head .skipped
  | set other run _ ih ih' => exact PutIn.next ih ih' (.set other) (.nextBeside other run)
  | @deeper _ text t _ _ _ a good step _ ih =>
    intro k hk
    rw [Trace.below, ← List.append_assoc] at hk
    rcases List.mem_append.mp hk with hk | hk
    · exact (ih k hk).head (.deeper good step)
    · rw [List.mem_singleton.mp hk]
      exact ⟨t, text, _, .head (.deeper good step) .refl, rfl⟩
  | @entered _ text t _ _ _ a good step _ ih =>
    intro k hk
    rw [Trace.opened_entered, Trace.entered, List.append_nil] at hk
    rcases List.mem_cons.mp hk with rfl | hk
    · exact ⟨t, text, _, .head (.entered good step) .refl, rfl⟩
    · exact (ih k (List.mem_append_left _ hk)).head (.entered good step)
  | found there _ ih => exact fun k hk => (ih k hk).head (.found there)
  | _ => simp [Trace.nil, Trace.opened]

/-- What is known and what was put in below the present entry are targets that the run came to. -/
def Recalled (x : Expander) (task₀ : Task) (s₀ s : Expansion) : Prop :=
  (∀ k ∈ s.done.map (·.1), x.PutIn task₀ s₀ k) ∧
    ∀ scope, s.scope = some scope → ∀ k ∈ scope.visited, x.PutIn task₀ s₀ k

namespace Recalled

variable {task₀ : Task} {s₀ : Expansion}

theorem after (h : Recalled x task₀ s₀ s) (comes : x.Comes task₀ s₀ task s)
    (run : Runs x task s r s' a) : Recalled x task₀ s₀ s' := by
  have put : ∀ k ∈ a.opened ++ a.put, x.PutIn task₀ s₀ k := by
    intro k hk
    obtain ⟨t, text, s₁, inner, same⟩ := run.put_in k hk
    exact ⟨t, text, s₁, comes.trans inner, same⟩
  obtain ⟨known, visited⟩ := h
  refine ⟨?_, ?_⟩
  · intro k hk
    rw [run.done_eq] at hk
    rcases List.mem_append.mp hk with hk | hk
    · exact put k (List.mem_append_left _ hk)
    · exact known k hk
  · intro scope here k hk
    rw [run.scope_eq, Option.map_eq_some_iff] at here
    obtain ⟨old, there, rfl⟩ := here
    rcases List.mem_append.mp hk with hk | hk
    · exact put k (List.mem_append_right _ hk)
    · exact visited old there k hk

theorem calls (h : Recalled x task₀ s₀ s) (comes : x.Comes task₀ s₀ task s)
    (call : x.Calls task s task' s') : Recalled x task₀ s₀ s' := by
  have now := comes.tail call
  cases call with
  | items | members _ | reference _ | item | member | skipped | set _ | found _ => exact h
  | beside found run => exact h.after (comes.tail (.reference found)) run
  | nextItems run => exact h.after (comes.tail .item) run
  | nextMembers run => exact h.after (comes.tail .member) run
  | nextBeside other run => exact h.after (comes.tail (.set other)) run
  | deeper good step =>
    refine ⟨h.1, ?_⟩
    intro scope here k hk
    obtain ⟨old, there, rfl⟩ := Option.map_eq_some_iff.mp here
    rcases List.mem_cons.mp hk with rfl | hk
    · exact ⟨_, _, _, now, rfl⟩
    · exact h.2 old there k hk
  | entered good step =>
    refine ⟨h.1, ?_⟩
    rintro _ ⟨⟩ k hk
    rw [List.mem_singleton.mp hk]
    exact ⟨_, _, _, now, rfl⟩

end Recalled

theorem Placed.comes (hx : x.Charted g) (placed : Placed x g task s)
    (comes : x.Comes task s task' s') : Placed x g task' s' :=
  comes.induct (Placed x g) placed fun placed call => placed.calls hx call

theorem Recalled.comes {task₀ : Task} {s₀ : Expansion} (h : Recalled x task₀ s₀ s₀)
    (comes : x.Comes task₀ s₀ task s) : Recalled x task₀ s₀ s := by
  have : x.Comes task₀ s₀ task s ∧ Recalled x task₀ s₀ s :=
    comes.induct (fun task s => x.Comes task₀ s₀ task s ∧ Recalled x task₀ s₀ s) ⟨.refl, h⟩
      fun before call => ⟨before.1.tail call, before.2.calls before.1 call⟩
  exact this.2

end Expander

/-! ### Logs of descriptions -/

namespace Document

variable {files : Files} {location : String} {w : World} {root : Source} {d : Document}
  {l : Library} {log : List Finding} {t u : Target}

/-- Resolving a description comes to a reference. -/
def Meets (d : Document) (w : World) (root : Source) (l : Library) : Source → String → Prop :=
  (Expander.ofLibrary w.files l root d.root).Meets (.value root d.root) .start

/-- Resolving a description comes to a reference whose target is missing. -/
def Misses (d : Document) (w : World) (root : Source) (l : Library) (t : Target) : Prop :=
  ∃ source text, d.Meets w root l source text ∧ Target.parse w.files source text = .ok t ∧
    l.find? t = none

theorem Misses.named (hroot : Source.parse files location = .ok root)
    (hl : Library.ofRoot w root d.root = .ok l) (signless : l.Signless)
    (h : d.Misses w root l t) : l.Names w.files t := by
  obtain ⟨settled, hd⟩ := Library.ofRoot_spec hroot hl
  have hx := Expander.charted_ofLibrary settled signless hd
  obtain ⟨placed, -⟩ := exists_run hroot hl signless
  obtain ⟨source, text, ⟨s, comes⟩, good, -⟩ := h
  obtain ⟨_, _, -, follows⟩ := placed.comes hx comes
  exact (follows text List.mem_cons_self t good).1.1

/-- Targets that are missing under one key are missing at one place. -/
theorem Misses.place_eq (hroot : Source.parse files location = .ok root)
    (hl : Library.ofRoot w root d.root = .ok l) (signless : l.Signless)
    (ht : d.Misses w root l t) (hu : d.Misses w root l u) (same : t.key = u.key) :
    t.place = u.place := by
  obtain ⟨settled, -⟩ := Library.ofRoot_spec hroot hl
  obtain ⟨key, pointer⟩ := Target.parts_of_key
    (settled.signless_key signless (ht.named hroot hl signless))
    (settled.signless_key signless (hu.named hroot hl signless)) same
  exact Prod.ext (Source.identity_eq_of_key key) pointer

/-- A log holds what is wrong with the references that are met, and no missing key twice. -/
structure Tells (d : Document) (w : World) (root : Source) (l : Library) (log : List Finding) :
    Prop where
  met : ∀ f ∈ log,
    (Expander.ofLibrary w.files l root d.root).Finds (.value root d.root) .start f
  malformed : ∀ source text e, d.Meets w root l source text →
    Target.parse w.files source text = .error e → .malformed source text e ∈ log
  entry : ∀ t, d.Misses w root l t → ∃ f ∈ log, f.key? = some t.key
  nodup : (log.filterMap Finding.key?).Nodup

namespace Tells

end Tells

/-- What a log tells of resolving a description. -/
structure Reports (d : Document) (w : World) (root : Source) (l : Library) (log : List Finding) :
    Prop where
  /-- A description is the answer when the log is empty, and its messages are otherwise. -/
  answer : (log = [] ∧ ∃ d', d.resolve w root = .ok d') ∨
    (log ≠ [] ∧
      d.resolve w root = .error (.invalidDocument root.display (log.map Finding.message)))
  /-- A description is the answer exactly when every reference that is met names a target that is
  there. -/
  sound : (∃ d', d.resolve w root = .ok d') ↔ ∀ source text, d.Meets w root l source text →
    ∃ t node, Target.parse w.files source text = .ok t ∧ l.find? t = some node
  /-- Whatever is in the log is wrong with a reference that is met. -/
  met : ∀ f ∈ log,
    (Expander.ofLibrary w.files l root d.root).Finds (.value root d.root) .start f
  /-- Every reference that is met and names no target is in the log. -/
  malformed : ∀ source text e, d.Meets w root l source text →
    Target.parse w.files source text = .error e → .malformed source text e ∈ log
  /-- Every missing target that is met has one entry under its key. -/
  missing : ∀ t, d.Misses w root l t → ∃ f, log.filter (·.key? = some t.key) = [f]
  /-- Every missing target that is met has one entry for its place exactly when the path of no such
  place is written in two ways. -/
  once : (∀ t, d.Misses w root l t → ∃ f, log.filter (·.place? = some t.place) = [f]) ↔
    ∀ t u, d.Misses w root l t → d.Misses w root l u → t.place = u.place → t.key = u.key
  /-- The expansion comes to what a reference that is met points to. -/
  follows : ∀ source text t base v, d.Meets w root l source text →
    Target.parse w.files source text = .ok t → l.find? t = some (base, v) →
      ∃ s, (Expander.ofLibrary w.files l root d.root).Comes (.value root d.root) .start
        (.value base v) s
  /-- The references that stand openly in what the expansion comes to are met. -/
  openly : ∀ base v s, (Expander.ofLibrary w.files l root d.root).Comes (.value root d.root) .start
    (.value base v) s → ∀ place members text, (Json.obj ⟨members⟩).Openly place v →
      Json.referenceOf? members = some text → d.Meets w root l base text

namespace Sample

/-- `gone` is named twice and once more through `a`, `lost` from a target that leads back to itself,
and one reference names nothing. -/
def faulty : Document where
  root := .object [
    ("a", ref "#/gone"),
    ("b", .arr [ref "#/gone", ref "#/a"]),
    ("c", .object [("d", ref "#/c"), ("e", ref "#/lost")]),
    ("f", ref "#broken")]

def twice : Document where
  root := .object [("a", ref "#/m"), ("b", ref "./spec.yaml#/m")]

end Sample

end Document

end ToolGateway
