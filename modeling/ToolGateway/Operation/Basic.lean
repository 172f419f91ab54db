import ToolGateway.Document
import ToolGateway.MediaType

/-!
# Operations

An operation is a method on a path, together with the parameters that the path item and the
operation declare for it. `Operation.all` lists the operations of a description: paths in the order
of the description, methods in a fixed order.
-/

namespace ToolGateway

/-- Where the value of a parameter goes in a request. -/
inductive Location where
  | path
  | query
  | header
  | cookie
deriving DecidableEq, Repr, Inhabited

namespace Location

def ofName? : String → Option Location
  | "path" => some .path
  | "query" => some .query
  | "header" => some .header
  | "cookie" => some .cookie
  | _ => none

def name : Location → String
  | .path => "path"
  | .query => "query"
  | .header => "header"
  | .cookie => "cookie"

end Location

structure Parameter where
  name : String
  declaredIn : String
  required : Bool
  description : Option String
  schema : Json
deriving Repr, Inhabited

namespace Parameter

/-- Where the parameter goes, none for a location that the gateway does not serve. -/
def location (p : Parameter) : Option Location := Location.ofName? p.declaredIn

/-- The schema that a parameter declares: its own, else that of its first media type, else one that
admits everything. -/
def schemaOf (ms : Json.Members) : Json :=
  match ms.get? "schema" with
  | some schema => schema
  | none =>
    let media := ((ms.get? "content").bind Json.obj?).bind (·.values.head?)
    (media.bind (·.get? "schema")).getD (.obj .empty)

/-- Reads a declaration; one without a name or a location counts for nothing. A path parameter is
always required. -/
def ofJson? (v : Json) : Option Parameter := do
  let ms ← v.obj?
  let name ← (ms.get? "name").bind Json.str?
  let declaredIn ← (ms.get? "in").bind Json.str?
  let required := declaredIn == "path" || ((ms.get? "required").bind Json.bool?).getD false
  return ⟨name, declaredIn, required, (ms.get? "description").bind Json.str?, schemaOf ms⟩

/-- Whether two declarations are of the same parameter. -/
def sameSlot (p q : Parameter) : Bool := p.name == q.name && p.declaredIn == q.declaredIn

def listOf (v : Option Json) : List Parameter :=
  ((v.bind Json.arr?).getD []).filterMap ofJson?

/-- The parameters of a path item, without those that the operation declares itself, and then the
operation's own. -/
def merge (ofItem ofOperation : List Parameter) : List Parameter :=
  ofItem.filter (fun p => !ofOperation.any (sameSlot p)) ++ ofOperation

end Parameter

structure Operation where
  path : String
  method : String
  body : Json
  parameters : List Parameter
  document : Document
deriving Repr, Inhabited

namespace Operation

/-- The operation that a path item holds for a method. -/
def ofItem (path method : String) (item : Json.Members) (body : Json) (d : Document) : Operation :=
  ⟨path, method, body,
    Parameter.merge (Parameter.listOf (item.get? "parameters"))
      (Parameter.listOf (body.get? "parameters")), d⟩

/-- The identifier that the description gives to the operation. -/
def id? (op : Operation) : Option String := op.body.getStr? "operationId"

def summary (op : Operation) : Option String := op.body.getStr? "summary"

def description (op : Operation) : Option String := op.body.getStr? "description"

/-- The media type and schema of the first JSON entry of the request body that has a schema. -/
def jsonBody (op : Operation) : Option (String × Json) := do
  let body ← op.body.getObj? "requestBody"
  let content ← (body.get? "content").bind Json.obj?
  content.entries.findSome? fun (media, entry) =>
    if MediaType.offersJson media then (entry.get? "schema").map (media, ·) else none

def responses (op : Operation) : Option Json.Members := op.body.getObj? "responses"

/-- Any other member, such as a vendor's extension. -/
def extension? (op : Operation) (name : String) : Option Json := op.body.get? name

/-- The security requirements: the operation's own, else those of the description. -/
def security (op : Operation) : Option (List Json) :=
  match op.body.getArr? "security" with
  | some own => some own
  | none => op.document.security

def label (op : Operation) : String := op.method ++ " " ++ op.path

def ofPathItem (d : Document) (path : String) (item : Json.Members) : List Operation :=
  Document.methods.filterMap fun method =>
    match item.get? method with
    | some (.obj body) => some (ofItem path (Text.upperAscii method) item (.obj body) d)
    | _ => none

def all (d : Document) : List Operation :=
  match d.paths with
  | none => []
  | some paths =>
    paths.entries.flatMap fun (path, item) =>
      match item with
      | .obj item => ofPathItem d path item
      | _ => []

end Operation

end ToolGateway
