import ToolGateway.Dict
import ToolGateway.Yaml.Token

/-!
# YAML nodes

The tree that the tokens of a text describe, as it is written: scalars keep their text, and aliases
point to anchors by number. A text holds one document. An anchor gets as its number how many names
are in use when it is set; of two nodes with one number the later one counts, for aliases before it
too.
-/

namespace ToolGateway.Yaml

/-- A node as it is written. -/
inductive Node where
  | scalar (tag : Option String) (text : String) (plain : Bool)
  | list (tag : Option String) (items : List Node)
  | map (tag : Option String) (entries : List (Node × Node))
  | alias (number : Nat)
deriving Repr, Inhabited

namespace Node

mutual

/-- The number of starts and ends of collections, scalars and aliases in a node. -/
def events : Node → Nat
  | list _ items => 2 + eventsOfItems items
  | map _ entries => 2 + eventsOfEntries entries
  | _ => 1

def eventsOfItems : List Node → Nat
  | [] => 0
  | n :: rest => n.events + eventsOfItems rest

def eventsOfEntries : List (Node × Node) → Nat
  | [] => 0
  | (k, v) :: rest => k.events + v.events + eventsOfEntries rest

end

/-- A value that is left out. -/
def missing : Node := .scalar none "" true

end Node

/-- A document: its node, none when the text is empty, and the nodes with anchors by number. -/
structure Parsed where
  root : Option Node
  anchored : List (Nat × Node)
deriving Repr, Inhabited

namespace Node

/-- A reading under way: the tokens to come, the handles of tags, the numbers of the anchors' names,
and for each anchored node, in the order of their starts, its number and the node once it is read.
-/
structure Reading where
  tokens : List Token
  handles : List (String × String)
  numbers : Dict Nat
  anchored : List (Nat × Node)
deriving Repr, Inhabited

abbrev Reader := StateT Reading Option

def peek : Reader (Option Token) := return (← get).tokens.head?

def skip : Reader Unit := modify fun r => { r with tokens := r.tokens.drop 1 }

/-- The full form of a tag; its handle must be known. -/
def fullTag (handle rest : String) : Reader String := do
  if handle.isEmpty then return rest
  match (← get).handles.lookup handle with
  | some start => return start ++ rest
  | none => failure

def anchor? : Reader (Option String) := do
  match ← peek with
  | some (.anchor name) => skip; return some name
  | _ => return none

def tag? : Reader (Option String) := do
  match ← peek with
  | some (.tag handle rest) => skip; return some (← fullTag handle rest)
  | _ => return none

/-- An anchor and a tag, in either order. -/
def properties : Reader (Option String × Option String) := do
  match ← anchor? with
  | some name => return (some name, ← tag?)
  | none =>
    let tag ← tag?
    return (← anchor?, tag)

/-- Sets an anchor; gives the place where its node belongs. -/
def reserve (name : Option String) : Reader (Option Nat) := do
  match name with
  | none => return none
  | some name =>
    let r ← get
    let number := r.numbers.size
    set { r with
      numbers := r.numbers.insert name number
      anchored := r.anchored ++ [(number, missing)] }
    return some r.anchored.length

/-- Puts a node into the place that was reserved for it. -/
def fulfil (place : Option Nat) (n : Node) : Reader Unit :=
  match place with
  | none => return
  | some i => modify fun r => { r with anchored := r.anchored.modify i fun (k, _) => (k, n) }

/-- The number of a name that is in use. -/
def number (name : String) : Reader Nat := do
  match (← get).numbers.get? name with
  | some n => return n
  | none => failure

/-- Whether a token shows that the item before it is left out. -/
def endsItem : Option Token → Bool
  | some .item | some .blockEnd => true
  | _ => false

/-- Whether a token shows that the item before it is left out, in a list as far left as its key. -/
def endsFlushItem : Option Token → Bool
  | some .item | some .key | some .value | some .blockEnd => true
  | _ => false

/-- Whether a token shows that the key or value before it is left out. -/
def endsEntry : Option Token → Bool
  | some .key | some .value | some .blockEnd => true
  | _ => false

/-- Whether a token shows that the key before it is left out in a flow mapping. -/
def endsFlowKey : Option Token → Bool
  | some .value | some .comma | some .flowMapEnd => true
  | _ => false

mutual

/-- Reads a node. Indented collections are read only where `inBlock` holds, a list as far left as
its key only where `mayBeFlush` does. Each function of this group passes on less fuel than it gets.
-/
def node (fuel : Nat) (inBlock mayBeFlush : Bool) : Reader Node := do
  match fuel with
  | 0 => failure
  | fuel + 1 =>
    match ← peek with
    | some (.alias name) => skip; return .alias (← number name)
    | _ =>
      let (name, tag) ← properties
      let place ← reserve name
      let n ← content fuel inBlock mayBeFlush (name.isSome || tag.isSome) tag
      fulfil place n
      return n

/-- Reads what follows the properties of a node; after properties it may be left out. -/
def content (fuel : Nat) (inBlock mayBeFlush hasProperties : Bool) (tag : Option String) :
    Reader Node := do
  match fuel with
  | 0 => failure
  | fuel + 1 =>
    match ← peek, inBlock, mayBeFlush with
    | some .item, _, true => return .list tag (← flushItems fuel)
    | some (.scalar text plain), _, _ =>
      skip; return .scalar (tag.filter (· != "!")) text plain
    | some .flowListStart, _, _ => skip; return .list tag (← flowItems fuel true)
    | some .flowMapStart, _, _ => skip; return .map tag (← flowEntries fuel true)
    | some .listStart, true, _ => skip; return .list tag (← blockItems fuel)
    | some .mapStart, true, _ => skip; return .map tag (← blockEntries fuel)
    | _, _, _ => if hasProperties then return .scalar tag "" true else failure

/-- Reads a node unless the next token shows that it is left out. -/
def nodeUnless (fuel : Nat) (left : Option Token → Bool) (inBlock mayBeFlush : Bool) :
    Reader Node := do
  match fuel with
  | 0 => failure
  | fuel + 1 => if left (← peek) then return missing else node fuel inBlock mayBeFlush

def blockItems (fuel : Nat) : Reader (List Node) := do
  match fuel with
  | 0 => failure
  | fuel + 1 =>
    match ← peek with
    | some .item =>
      skip
      let n ← nodeUnless fuel endsItem true false
      return n :: (← blockItems fuel)
    | some .blockEnd => skip; return []
    | _ => failure

/-- Reads the items of a list that stands as far left as its key. -/
def flushItems (fuel : Nat) : Reader (List Node) := do
  match fuel with
  | 0 => failure
  | fuel + 1 =>
    match ← peek with
    | some .item =>
      skip
      let n ← nodeUnless fuel endsFlushItem true false
      return n :: (← flushItems fuel)
    | _ => return []

def blockEntries (fuel : Nat) : Reader (List (Node × Node)) := do
  match fuel with
  | 0 => failure
  | fuel + 1 =>
    match ← peek with
    | some .key =>
      skip
      let k ← nodeUnless fuel endsEntry true true
      let v ← valueAfter fuel endsEntry true
      return (k, v) :: (← blockEntries fuel)
    | some .blockEnd => skip; return []
    | _ => failure

/-- Reads a value after its colon; without a colon it is left out. -/
def valueAfter (fuel : Nat) (left : Option Token → Bool) (inBlock : Bool) : Reader Node := do
  match fuel with
  | 0 => failure
  | fuel + 1 =>
    match ← peek with
    | some .value => skip; nodeUnless fuel left inBlock inBlock
    | _ => return missing

/-- Reads the items of a list in brackets. A key among them makes a mapping of one entry; a key that
is left out takes the token after it along. -/
def flowItems (fuel : Nat) (first : Bool) : Reader (List Node) := do
  match fuel with
  | 0 => failure
  | fuel + 1 =>
    match first, ← peek with
    | false, some .comma => skip
    | false, some .flowListEnd => pure ()
    | false, _ => failure
    | true, _ => pure ()
    match ← peek with
    | some .flowListEnd => skip; return []
    | some .key =>
      skip
      let k ← match ← peek with
        | some .value | some .comma | some .flowListEnd => skip; pure missing
        | _ => node fuel false false
      let v ← valueAfter fuel endsFlowItem false
      return .map none [(k, v)] :: (← flowItems fuel false)
    | _ =>
      let n ← node fuel false false
      return n :: (← flowItems fuel false)
where
  endsFlowItem : Option Token → Bool
    | some .comma | some .flowListEnd => true
    | _ => false

/-- Reads the entries of a mapping in braces. -/
def flowEntries (fuel : Nat) (first : Bool) : Reader (List (Node × Node)) := do
  match fuel with
  | 0 => failure
  | fuel + 1 =>
    match first, ← peek with
    | false, some .comma => skip
    | false, some .flowMapEnd => pure ()
    | false, _ => failure
    | true, _ => pure ()
    match ← peek with
    | some .flowMapEnd => skip; return []
    | some .key =>
      skip
      let k ← nodeUnless fuel endsFlowKey false false
      let v ← valueAfter fuel endsFlowValue false
      return (k, v) :: (← flowEntries fuel false)
    | _ =>
      let k ← node fuel false false
      return (k, missing) :: (← flowEntries fuel false)
where
  endsFlowValue : Option Token → Bool
    | some .comma | some .flowMapEnd => true
    | _ => false

end

/-! ### Documents -/

/-- Reads the directives before a document: at most one version, which must be 1.1 or 1.2, and
handles that are all different. -/
def directives (fuel : Nat) (hasVersion : Bool) : Reader Unit := do
  match fuel with
  | 0 => failure
  | fuel + 1 =>
    match ← peek with
    | some (.version major minor) =>
      if hasVersion || major != 1 || (minor != 1 && minor != 2) then failure
      skip
      directives fuel true
    | some (.handle name start) =>
      if ((← get).handles.lookup name).isSome then failure
      skip
      modify fun r => { r with handles := r.handles ++ [(name, start)] }
      directives fuel hasVersion
    | _ => return

/-- The handles that need no directive. -/
def usualHandles : List (String × String) := [("!", "!"), ("!!", "tag:yaml.org,2002:")]

/-- Whether a token shows that a document is empty. -/
def endsDocument : Option Token → Bool
  | none | some (.version ..) | some (.handle ..) | some .documentStart | some .documentEnd => true
  | _ => false

/-- Reads a text: an optional document and the signs of its end, and nothing after them. -/
def stream (fuel : Nat) : Reader (Option Node) := do
  let root ← match ← peek with
    | none => return none
    | some (.version ..) | some (.handle ..) | some .documentStart => do
      directives fuel false
      if (← peek) != some .documentStart then failure
      skip
      modify fun r => { r with handles := r.handles ++ usualHandles }
      nodeUnless fuel endsDocument true false
    | _ => do
      modify fun r => { r with handles := usualHandles }
      node fuel true false
  if (← get).tokens.all (· == .documentEnd) then return some root else failure

/-- The document that tokens describe. -/
def ofTokens? (ts : List Token) : Option Parsed := do
  let (root, r) ← (stream (4 * ts.length + 8)).run ⟨ts, [], .empty, []⟩
  return ⟨root, r.anchored.reverse⟩

end Node

end ToolGateway.Yaml
