import ToolGateway.Reference.Target
import ToolGateway.Source.Reading

/-!
# Libraries of documents

A description and all documents that its references lead to, directly or through others. The
description is given; every other document is loaded once, in the order in which they are met.
-/

namespace ToolGateway

/-- Documents by their sources. -/
structure Library where
  documents : List (Source × Json)
deriving Repr, Inhabited

namespace Library

/-- The document from a source, with the source that it is known by. -/
def document? (l : Library) (source : Source) : Option (Source × Json) :=
  l.documents.find? (source.same ·.1)

/-- What a target points to, if the library has it. It is known by the source in the target, which
may be spelled otherwise than that of the document. -/
def find? (l : Library) (t : Target) : Option (Source × Json) :=
  match l.document? t.source, t.pointer with
  | none, _ => none
  | some (_, v), none => some (t.source, v)
  | some (_, v), some p => (Pointer.find? v p).map fun v => (t.source, v)

/-- The targets of the references in what a target points to. -/
def targets (l : Library) (files : Files) (t : Target) : List Target :=
  match l.find? t with
  | some (source, v) => Target.within files source v
  | none => []

/-- The number of references in all documents. -/
def referenceCount (l : Library) : Nat := (l.documents.flatMap (·.2.references)).length

/-- The texts that the paths of documents are put together from: the paths of places and documents,
and what references put behind a folder. -/
def texts (files : Files) (l : Library) : List String :=
  "." :: files.places.map Files.pathOf ++
    l.documents.flatMap fun d => d.1.path?.toList ++ d.2.references.flatMap Target.texts

/-- The most names that the path of a document has. -/
def depth (l : Library) : Nat := (l.documents.map fun d => d.1.depth).foldr max 0

/-- A bound on the sources under which documents are known. A path is put together from beginnings
of the texts, of two more than it has names at most. -/
def sourceCount (files : Files) (l : Library) : Nat :=
  l.documents.length +
    Nat.pow (((l.texts files).map fun t => t.length + 1).foldr (· + ·) 0 + 1) (l.depth + 2)

/-- Loads a document that is not in the library. -/
def load (w : World) (source : Source) (l : Library) : Except Error ((Source × Json) × Library) :=
  match l.document? source with
  | some d => .ok (d, l)
  | none => do
    let text ← source.text w
    match Document.tree? text with
    | none => .error (source.fault "Failed to parse referenced document")
    | some v => return ((source, v), ⟨l.documents ++ [(source, v)]⟩)

/-- Loads the documents in the queue and those they lead to, each once. Only a document that was not
scanned before uses fuel. -/
def loadAll (w : World) : Nat → List Source → List Source → Library → Except Error Library
  | 0, _, _, l => .ok l
  | fuel + 1, queue, scanned, l =>
    match queue.dropWhile fun s => scanned.any s.same with
    | [] => .ok l
    | source :: queue => do
      let ((base, v), l) ← load w source l
      let scanned := source :: scanned
      let more := ((Target.within w.files base v).map (·.source)).filter fun s =>
        !scanned.any s.same
      loadAll w fuel (queue ++ more) scanned l

/-- The library of a description. What is scanned is the description itself, or it stands at a place
of the world, so two more than there are places is fuel enough. -/
def ofRoot (w : World) (root : Source) (v : Json) : Except Error Library :=
  loadAll w (w.size + 2) [root] [] ⟨[(root, v)]⟩

end Library

end ToolGateway
