import ToolGateway.Reference.Graph

/-!
# Expansion of references

Every reference is replaced by what it points to, and the members beside it are set over that.
Targets that lead back to themselves form components. When a component is entered, each of its
targets is put in once below that entry, and after that it is cut off as an empty object. What an
entry expands to is remembered, since it depends on its target alone.
-/

namespace ToolGateway

/-- Everything an expansion looks up: the files that tell spellings of a path apart, the documents,
and the component of each key. -/
structure Expander where
  files : Files
  library : Library
  components : List (String × Nat)
deriving Repr, Inhabited

/-- The component that was entered last, and its keys that have been put in since. -/
structure Scope where
  component : Option Nat
  visited : List String
deriving DecidableEq, Repr, Inhabited

structure Expansion where
  scope : Option Scope
  done : List (String × Json)
  faults : List String
deriving Repr, Inhabited

namespace Expansion

/-- Before anything is expanded. -/
def start : Expansion := ⟨none, [], []⟩

def fail (s : Expansion) (fault : String) : Expansion := { s with faults := s.faults ++ [fault] }

end Expansion

/-- What happens to a reference: it is cut off, put in below the present entry, taken from what is
known, or entered. -/
inductive Step where
  | cut
  | below
  | known (v : Json)
  | enter
deriving Repr, Inhabited

namespace Expander

/-- The value that stands for a reference that is cut off or broken. -/
def nothing : Json := .obj .empty

/-- Decides what happens to a reference to a key. -/
def step (x : Expander) (s : Expansion) (key : String) : Step :=
  let component := x.components.lookup key
  let known := match s.done.lookup key with
    | some v => .known v
    | none => .enter
  match s.scope with
  | some scope =>
    -- What is known was expanded from outside, so it is of no use inside its own component.
    if component.isSome && scope.component == component then
      if scope.visited.contains key then .cut else .below
    else known
  | none => known

/-- The expansion inside the present component, with one more key put in. -/
def visit (key : String) (s : Expansion) : Expansion :=
  { s with scope := s.scope.map fun scope => { scope with visited := key :: scope.visited } }

/-- The expansion inside a component that is entered at a key. -/
def enter (x : Expander) (key : String) (s : Expansion) : Expansion :=
  { s with scope := some ⟨x.components.lookup key, [key]⟩ }

/-- The expansion after an entry, back where it came from. -/
def leave (outer : Option Scope) (key : String) (v : Json) (s : Expansion) : Expansion :=
  { s with scope := outer, done := (key, v) :: s.done }

/-- Decides about a reference and replaces it, without the members beside it. `put` expands the value
of its target. -/
def replace (x : Expander) (put : Target → String → Expansion → Json × Expansion) (source : Source)
    (reference : String) (s : Expansion) : Json × Expansion :=
  match Target.parse x.files source reference with
  | .error e => (nothing, s.fail e.message)
  | .ok t =>
    match x.step s t.key with
    | .cut => (nothing, s)
    | .below => put t reference (visit t.key s)
    | .known v => (v, s)
    | .enter =>
      let (v, after) := put t reference (x.enter t.key s)
      (v, leave s.scope t.key v after)

mutual

/-- Expands a value of the document from a source; `put` expands the values of targets. -/
def expandWith (x : Expander) (put : Target → String → Expansion → Json × Expansion)
    (source : Source) : Json → Expansion → Json × Expansion
  | .obj ⟨members⟩, s =>
    match Json.referenceOf? members with
    | some reference =>
      match x.replace put source reference s with
      | (.obj target, s) =>
        let (target, s) := overlay x put source members target s
        (.obj target, s)
      | result => result
    | none =>
      let (members, s) := expandMembers x put source members s
      (.obj ⟨members⟩, s)
  | .arr items, s =>
    let (items, s) := expandItems x put source items s
    (.arr items, s)
  | v, s => (v, s)

def expandItems (x : Expander) (put : Target → String → Expansion → Json × Expansion)
    (source : Source) : List Json → Expansion → List Json × Expansion
  | [], s => ([], s)
  | v :: rest, s =>
    let (v, s) := expandWith x put source v s
    let (rest, s) := expandItems x put source rest s
    (v :: rest, s)

def expandMembers (x : Expander) (put : Target → String → Expansion → Json × Expansion)
    (source : Source) : List (String × Json) → Expansion → List (String × Json) × Expansion
  | [], s => ([], s)
  | (k, v) :: rest, s =>
    let (v, s) := expandWith x put source v s
    let (rest, s) := expandMembers x put source rest s
    ((k, v) :: rest, s)

/-- Sets the members beside a reference over the members of its target. -/
def overlay (x : Expander) (put : Target → String → Expansion → Json × Expansion)
    (source : Source) : List (String × Json) → Json.Members → Expansion → Json.Members × Expansion
  | [], target, s => (target, s)
  | (k, v) :: rest, target, s =>
    if k = "$ref" then overlay x put source rest target s
    else
      let (v, s) := expandWith x put source v s
      overlay x put source rest (target.insert k v) s

end

/-- Expands the value of a target. `fuel` bounds how many targets are put into each other; every one
of them has a different key, so the number of keys is enough. -/
def inline (x : Expander) : Nat → Target → String → Expansion → Json × Expansion
  | fuel, t, reference, s =>
    match x.library.find? t, fuel with
    | none, _ => (nothing, s.fail s!"Unresolved $ref '{reference}' (doc {t.source.display})")
    | some _, 0 => (nothing, s)
    | some (source, v), fuel + 1 => expandWith x (x.inline fuel) source v s

/-- Expands a value of the document from a source. -/
def expand (x : Expander) (fuel : Nat) (source : Source) (v : Json) (s : Expansion) :
    Json × Expansion :=
  x.expandWith (x.inline fuel) source v s

end Expander

namespace Document

/-- Expands every reference of a description that was read from a source. -/
def resolve (w : World) (root : Source) (d : Document) : Except Error Document := do
  let library ← Library.ofRoot w root d.root
  let graph := ReferenceGraph.ofLibrary w.files library root d.root
  let x : Expander := ⟨w.files, library, graph.components⟩
  let (v, s) := x.expand (graph.edges.length + 1) root d.root .start
  if s.faults.isEmpty then return ⟨v⟩
  else throw (.invalidDocument root.display s.faults)

end Document

end ToolGateway
