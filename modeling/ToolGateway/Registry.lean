import ToolGateway.Reference.Expansion
import ToolGateway.Schema.Filter
import ToolGateway.Source.Reading

/-!
# The current description

A registry holds the description that the gateway works with: read, filtered, and with every
reference expanded. It can be asked to read the description anew. When that fails, the one it has
stays.
-/

namespace ToolGateway

/-- The description from a location, and how it is read. -/
structure Registry where
  location : String
  root : Source
  check : DigestCheck
  filters : Dict Bool
  document : Document
deriving Inhabited

namespace Registry

/-- What is done with a description after it was read. -/
def finish (w : World) (root : Source) (filters : Dict Bool) (raw : Document) :
    Except Error Document := do
  (← Filter.apply filters raw).resolve w root

/-- Reads the description at a location for the first time. -/
def load (w : World) (location : String) (check : DigestCheck) (filters : Dict Bool) :
    Except Error Registry := do
  let root ← Source.parse w.files location
  let document ← finish w root filters (← Document.read w check location)
  return ⟨location, root, check, filters, document⟩

def version (r : Registry) : Option String := r.document.version

/-- The description as it can be read now. -/
def raw (w : World) (r : Registry) : Except Error Document := Document.read w r.check r.location

/-- Puts a description in place of the current one, when there is one. -/
def store (r : Registry) : Except Error Document → Except Error Unit × Registry
  | .ok document => (.ok (), { r with document })
  | .error e => (.error e, r)

def reload (w : World) (r : Registry) : Except Error Unit × Registry :=
  r.store ((r.raw w).bind (finish w r.root r.filters))

/-- Reads the description anew, but leaves the current one when the new one has the known version.
Tells whether it was replaced. -/
def reloadIfUpdated (w : World) (known : Option String) (r : Registry) :
    Except Error Bool × Registry :=
  match r.raw w with
  | .error e => (.error e, r)
  | .ok raw =>
    if known.isSome && raw.version == known then (.ok false, r)
    else
      let (done, r) := r.store (finish w r.root r.filters raw)
      (done.map fun _ => true, r)

end Registry

end ToolGateway
