import ToolGateway.Json.Basic
import ToolGateway.Text.Basic

/-!
# API descriptions

An API description is kept as the JSON tree it was read as, so that everything it holds survives.
The functions here name the parts that the gateway uses; `diagnose` says what makes a tree unusable
as a description.
-/

namespace ToolGateway

structure Document where
  root : Json
deriving Repr, Inhabited

namespace Document

/-- The keys of a path item that hold operations, in the order operations are listed. -/
def methods : List String := ["get", "put", "post", "delete", "options", "head", "patch", "trace"]

/-- A member of the object under a key of the root. -/
def within (d : Document) (part key : String) : Option Json :=
  (d.root.get? part).bind (·.get? key)

/-- The version of the described API, which tells whether a description has changed. -/
def version (d : Document) : Option String := (d.within "info" "version").bind Json.str?

def formatVersion (d : Document) : Option String := d.root.getStr? "openapi"

def title (d : Document) : Option String := (d.within "info" "title").bind Json.str?

def paths (d : Document) : Option Json.Members := d.root.getObj? "paths"

def schemas (d : Document) : Option Json.Members :=
  (d.within "components" "schemas").bind Json.obj?

def securitySchemes (d : Document) : Option Json.Members :=
  (d.within "components" "securitySchemes").bind Json.obj?

/-- The security requirements that hold for operations without their own. -/
def security (d : Document) : Option (List Json) := d.root.getArr? "security"

/-- The server URLs in order; a server without one counts as the empty URL. -/
def serverUrls (d : Document) : List String :=
  ((d.root.getArr? "servers").getD []).map fun s => (s.getStr? "url").getD ""

/-- The number of operation keys over all path items. -/
def operationCount (d : Document) : Nat :=
  match d.paths with
  | none => 0
  | some ps =>
    (ps.values.flatMap fun item =>
      match item with
      | .obj item => methods.filter item.contains
      | _ => []).length

/-- Puts a schemas object in place of the present one; a description without one is unchanged. -/
def withSchemas (d : Document) (schemas : Json.Members) : Document :=
  match d.root with
  | .obj root =>
    match root.get? "components" with
    | some (.obj components) =>
      ⟨.obj (root.replace "components" (.obj (components.replace "schemas" (.obj schemas))))⟩
    | _ => d
  | _ => d

/-- The last segment of a reference: the name of the component it points to. -/
def simpleName (reference : String) : String := Text.afterLast '/' reference

/-! ### Diagnosis -/

/-- What is wrong with a description: what makes it unusable, and what is tolerated. -/
structure Diagnosis where
  fatal : List String
  warnings : List String
deriving Repr, Inhabited, DecidableEq

def formatFaults (root : Json.Members) : List String :=
  match (root.get? "openapi").bind Json.str? with
  | some v => if Text.startsWith v "3." then [] else [s!"unsupported openapi version '{v}'"]
  | none => ["attribute openapi is missing"]

def infoFaults (root : Json.Members) : List String :=
  match root.get? "info" with
  | some (.obj info) =>
    match info.get? "version" with
    | some (.str _) => []
    | some _ => ["attribute info.version is not a string"]
    | none => ["attribute info.version is missing"]
  | some _ => ["attribute info is not a mapping"]
  | none => ["attribute info is missing"]

/-- The operations of a path item that list no responses. -/
def operationWarnings (path : String) (item : Json.Members) : List String :=
  methods.filterMap fun method =>
    match item.get? method with
    | some op =>
      if (op.get? "responses").isNone then
        some s!"operation {Text.upperAscii method} {path} has no responses"
      else none
    | none => none

def pathWarnings (paths : Json.Members) : List String :=
  paths.entries.flatMap fun (path, item) =>
    match item with
    | .obj item => operationWarnings path item
    | _ => [s!"path item '{path}' is not a mapping"]

/-- Checks the structure of a tree that is to be a description. -/
def diagnose (root : Json) : Diagnosis :=
  match root with
  | .obj root =>
    let faults := formatFaults root ++ infoFaults root
    match root.get? "paths" with
    | none => ⟨faults, ["attribute paths is missing"]⟩
    | some (.obj paths) => ⟨faults, pathWarnings paths⟩
    | some _ => ⟨faults ++ ["attribute paths is not a mapping"], []⟩
  | _ => ⟨["document root is not a mapping"], []⟩

end Document

end ToolGateway
