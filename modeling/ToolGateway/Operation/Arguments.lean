import ToolGateway.Operation.Basic
import ToolGateway.Request.Basic

/-!
# Arguments of a call

A tool takes one object of arguments. Its schema is that of the parameters when the operation has no
JSON body, that of the body when it has no parameters, and an envelope with one key for each when it
has both. `Envelope.compose` gives the schema, `Envelope.decompose` splits the arguments of a call
into the parts of a request.
-/

namespace ToolGateway

/-- The two keys of an envelope. -/
structure Envelope where
  parametersKey : String
  bodyKey : String
deriving DecidableEq, Repr, Inhabited

structure Arguments where
  path : Json.Members
  query : Json.Members
  header : Json.Members
  cookie : Json.Members
  payload : Option Payload
deriving Repr, Inhabited

namespace Arguments

def none : Arguments := ⟨.empty, .empty, .empty, .empty, .none⟩

def isEmpty (a : Arguments) : Bool :=
  a.path.isEmpty && a.query.isEmpty && a.header.isEmpty && a.cookie.isEmpty && a.payload.isNone

/-- Puts a value under a name into the part for a location. -/
def insert (a : Arguments) (location : Location) (name : String) (value : Json) : Arguments :=
  match location with
  | .path => { a with path := a.path.insert name value }
  | .query => { a with query := a.query.insert name value }
  | .header => { a with header := a.header.insert name value }
  | .cookie => { a with cookie := a.cookie.insert name value }

def toRequest (a : Arguments) (op : Operation) : Request :=
  { method := op.method, path := op.path, pathValues := a.path, query := a.query
    headers := a.header, cookies := a.cookie, payload := a.payload }

/-- Puts the values of declared parameters into their parts; nulls count as absent. -/
def gather (parameters : List Parameter) (values : Json.Members) : Arguments :=
  parameters.foldl (fun a p =>
    match p.location, values.get? p.name with
    | some location, some v => if v.isNull then a else a.insert location p.name v
    | _, _ => a) none

end Arguments

namespace Envelope

/-! ### The schema of the arguments -/

/-- A schema with a description, unless it has one or is not an object. -/
def described (schema : Json) (description : Option Json) : Json :=
  match schema, description with
  | .obj ms, some d =>
    if ms.contains "description" then schema else .obj (ms.insert "description" d)
  | _, _ => schema

/-- The parameters that the gateway serves. -/
def served (op : Operation) : List Parameter := op.parameters.filter (·.location.isSome)

/-- The schema of the parameters, none when there are none. -/
def parametersSchema (op : Operation) : Option Json :=
  let parameters := served op
  let properties : Json.Members := Dict.ofList (parameters.map fun p =>
    (p.name, described p.schema (p.description.map .str)))
  let required := (parameters.filter (·.required)).map (·.name)
  if properties.isEmpty then none
  else
    some (.object ([("type", .str "object"), ("properties", .obj properties)] ++
      (if required.isEmpty then [] else [("required", Json.strings required)])))

def hasProperties (schema : Json) : Bool :=
  let isObject := match schema.get? "type" with
    | some (.str t) => t == "object"
    | some (.arr types) => types.any fun t => t.str? == some "object"
    | _ => false
  isObject &&
    (match schema.get? "properties" with
      | some (.obj ps) => !ps.isEmpty
      | _ => false)

/-- The schema of a body by itself: an object with properties stands for itself, anything else is
wrapped under the body key. -/
def bodySchema (e : Envelope) (op : Operation) : Option Json := do
  let body ← op.body.getObj? "requestBody"
  let (_, schema) ← op.jsonBody
  let description := body.get? "description"
  if hasProperties schema then some (described schema description)
  else
    some (.object ([("type", .str "object")] ++
      (description.map (("description", ·))).toList ++
      [("properties", .object [(e.bodyKey, schema)]), ("required", Json.strings [e.bodyKey])]))

/-- The one property under the body key, if there is no other; else the schema itself. -/
def unwrapped (e : Envelope) (schema : Json) : Json :=
  match schema.get? "properties" with
  | some (.obj ps) => if ps.size = 1 then (ps.get? e.bodyKey).getD schema else schema
  | _ => schema

/-- The schema of the arguments of an operation, none when it takes no arguments. -/
def compose (e : Envelope) (op : Operation) : Option Json :=
  match parametersSchema op, e.bodySchema op with
  | some parameters, some body =>
    some (.object [("type", .str "object"),
      ("properties", .obj (Dict.ofList
        [(e.parametersKey, parameters), (e.bodyKey, e.unwrapped body)])),
      ("required", Json.strings [e.parametersKey, e.bodyKey])])
  | some parameters, none => some parameters
  | none, body => body

/-! ### The arguments of a call -/

/-- A body with the media type of the operation, none when the operation takes no JSON body. -/
def payloadOf (op : Operation) (content : Json) : Option Payload :=
  op.jsonBody.map fun (media, _) => ⟨media, content⟩

/-- Reads arguments in an envelope. A part that the operation does not have, and parameters that are
not an object, are left out. -/
def unpack (e : Envelope) (op : Operation) (arguments : Json.Members) : Arguments :=
  let parts := match arguments.get? e.parametersKey with
    | some (.obj values) => Arguments.gather op.parameters values
    | _ => Arguments.none
  match arguments.get? e.bodyKey with
  | some content => { parts with payload := payloadOf op content }
  | none => parts

/-- Splits the arguments of a call. They are in an envelope when one of its keys is there; otherwise
they are the parameters or the body, whichever the operation has, and nothing when it has both or
neither. -/
def decompose (e : Envelope) (op : Operation) (arguments : Option Json.Members) : Arguments :=
  match arguments with
  | none => Arguments.none
  | some arguments =>
    if arguments.contains e.parametersKey || arguments.contains e.bodyKey then e.unpack op arguments
    else
      -- Here parameters of any location count, also those that are not served.
      match op.parameters.isEmpty, op.jsonBody with
      | false, none => Arguments.gather op.parameters arguments
      | true, some _ => { Arguments.none with payload := payloadOf op (.obj arguments) }
      | _, _ => Arguments.none

end Envelope

end ToolGateway
