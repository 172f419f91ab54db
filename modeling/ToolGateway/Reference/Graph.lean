import ToolGateway.Reference.Library

/-!
# The graph of references

A target leads to the targets of the references in its value. Two targets are in one component when
each leads to the other, in any number of steps. One search finds the components, by Tarjan's
algorithm: keys are numbered as they are met, and a component is complete when none of its keys leads
to one that was met before all of them and has no component yet.
-/

namespace ToolGateway

/-- Where a search for components stands. In the tables a key counts with its first entry. -/
structure Tarjan where
  /-- The number of the key that is met next. -/
  nextIndex : Nat
  /-- The numbers of the keys that were met. -/
  index : List (String × Nat)
  /-- The least number of a key on the stack that a key is known to lead to. -/
  low : List (String × Nat)
  onStack : List String
  /-- The keys that were met and have no component yet, the last one first. -/
  stack : List String
  component : List (String × Nat)
  /-- The number of the component that is complete next. -/
  count : Nat
deriving Repr, Inhabited

namespace Tarjan

/-- Before any key was met. -/
def start : Tarjan := ⟨0, [], [], [], [], [], 0⟩

/-- Meets a key. -/
def enter (key : String) (t : Tarjan) : Tarjan :=
  { t with
    nextIndex := t.nextIndex + 1
    index := (key, t.nextIndex) :: t.index
    low := (key, t.nextIndex) :: t.low
    stack := key :: t.stack
    onStack := key :: t.onStack }

def setLow (key : String) (n : Nat) (t : Tarjan) : Tarjan := { t with low := (key, n) :: t.low }

/-- Takes keys from the stack into the present component until `key` was taken. -/
def close (key : String) : List String → Tarjan → Tarjan
  | [], t => t
  | member :: rest, t =>
    let t := { t with
      stack := rest
      onStack := t.onStack.filter (· != member)
      component := (member, t.count) :: t.component }
    if member = key then t else close key rest t

/-- Completes the component of a key that leads to none below it on the stack. -/
def complete (key : String) (t : Tarjan) : Tarjan :=
  let t := close key t.stack t
  { t with count := t.count + 1 }

/-- Goes along an edge; `visit` is the search from a key that was not met yet. None when a key is
looked up that has no entry. -/
def follow (visit : String → Tarjan → Option Tarjan) (key next : String) (t : Tarjan) :
    Option Tarjan :=
  if (t.index.lookup next).isNone then do
    let t ← visit next t
    let low ← t.low.lookup key
    let reached ← t.low.lookup next
    return t.setLow key (min low reached)
  else if t.onStack.contains next then do
    let low ← t.low.lookup key
    let reached ← t.index.lookup next
    return t.setLow key (min low reached)
  else return t

end Tarjan

/-- For each key the keys it leads to in one step. -/
structure ReferenceGraph where
  edges : List (String × List String)
deriving Repr, Inhabited

namespace ReferenceGraph

def keys (g : ReferenceGraph) : List String := g.edges.map (·.1)

def next (g : ReferenceGraph) (key : String) : List String := (g.edges.lookup key).getD []

/-- Searches from a key that was not met yet. None also when more searches than `depth` are nested. -/
def connect (g : ReferenceGraph) : Nat → String → Tarjan → Option Tarjan
  | 0, _, _ => none
  | depth + 1, key, t => do
    let t ← (g.next key).foldlM (fun t next => t.follow (g.connect depth) key next) (t.enter key)
    let low ← t.low.lookup key
    let index ← t.index.lookup key
    return if low = index then t.complete key else t

/-- Searches from every key that was not met yet, and gives the number of each key's component. -/
def components? (g : ReferenceGraph) (depth : Nat) : Option (List (String × Nat)) := do
  let t ← g.keys.foldlM
    (fun t key => if (t.index.lookup key).isSome then some t else g.connect depth key t) .start
  return t.component

/-- The number of each key's component. Searches that are nested start from different keys, so the
number of keys is depth enough. -/
def components (g : ReferenceGraph) : List (String × Nat) :=
  (g.components? g.edges.length).getD []

/-- Adds the pending targets and those they lead to. Only a new key uses fuel. -/
def grow (files : Files) (l : Library) :
    Nat → List Target → List (String × List String) → List (String × List String)
  | 0, _, edges => edges
  | fuel + 1, pending, edges =>
    match pending.dropWhile fun t => (edges.lookup t.key).isSome with
    | [] => edges
    | t :: pending =>
      let targets := l.targets files t
      grow files l fuel (targets ++ pending) (edges ++ [(t.key, targets.map Target.key)])

/-- The graph of the targets that can be reached from a description. Every key is that of a reference
in some document under some source, so one more than there are such references is fuel enough. -/
def ofLibrary (files : Files) (l : Library) (root : Source) (v : Json) : ReferenceGraph :=
  ⟨grow files l (l.sourceCount files * l.referenceCount + 1) (Target.within files root v) []⟩

end ReferenceGraph

end ToolGateway
