import ToolGateway.Published

/-!
# What changes from one catalog to the next

A name that the new catalog does not have is removed. A tool is added when its name is new or when
clients would see another definition; what counts is the last tool of a name.
-/

namespace ToolGateway

/-- The last tool of a name. -/
def Catalog.last? (c : Catalog) (name : String) : Option Tool := c.reverse.find? (·.name == name)

/-- What is asked of the published tools. -/
inductive Change where
  | remove (name : String)
  | add (tool : Tool)
  | notify
deriving Repr, Inhabited

/-- The names that disappear and the names of tools that are new or look different. -/
structure Diff where
  removed : List String
  upserted : List String
deriving DecidableEq, Repr, Inhabited

namespace Diff

/-- Whether a tool looks like the last one of its name in a catalog. -/
def isKept (before : Catalog) (t : Tool) : Bool :=
  (before.last? t.name).any (·.definition.same t.definition)

def between (before after : Catalog) : Diff where
  removed := (before.map (·.name)).filter fun name => (after.last? name).isNone
  upserted := (after.filter (!isKept before ·)).map (·.name)

def isEmpty (d : Diff) : Bool := d.removed.isEmpty && d.upserted.isEmpty

/-- The changes that lead to a new catalog. Clients are told when there are any. -/
def changes (d : Diff) (after : Catalog) : List Change :=
  d.removed.map .remove ++
    (after.filter fun t => d.upserted.contains t.name).map .add ++
    (if d.isEmpty then [] else [.notify])

end Diff

namespace Published

/-- Makes one change: the connections that were told about it. -/
def apply (reaches : Peer → Bool) (p : Published σ) : Change → List Peer × Published σ
  | .remove name => ([], (p.remove name).2)
  | .add tool => ([], p.add tool)
  | .notify => p.notify reaches

/-- Makes changes one after the other: the connections that were told, in order. -/
def applyAll (reaches : Peer → Bool) (p : Published σ) (changes : List Change) :
    List Peer × Published σ :=
  changes.foldl (fun (told, p) c =>
    let (more, p) := p.apply reaches c
    (told ++ more, p)) ([], p)

end Published

end ToolGateway
