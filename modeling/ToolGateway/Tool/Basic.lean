import ToolGateway.Operation.Naming
import ToolGateway.Request.Annotations
import ToolGateway.Tool.Handler

/-!
# Tools

A tool is an operation that clients can call. Its definition is what they see: a name, a title, a
description and the schema of its arguments. A catalog holds one tool for each operation of a
description, or none at all when an operation cannot be named.
-/

namespace ToolGateway

/-- What clients see of a tool. -/
structure Definition where
  name : String
  title : String
  description : Option String
  schema : Json.Members
deriving Repr, Inhabited

/-- Whether two definitions show the same to a client. -/
def Definition.same (a b : Definition) : Bool :=
  a.name == b.name && a.title == b.title && a.description == b.description &&
    Json.same (.obj a.schema) (.obj b.schema)

/-- A tool, with what it takes to serve it. -/
structure Tool where
  definition : Definition
  operation : Operation
  envelope : Envelope
deriving Repr, Inhabited

namespace Tool

def name (t : Tool) : String := t.definition.name

def annotations (t : Tool) : Annotations :=
  Annotations.ofMethod t.operation.method (some t.definition.title)

/-- Answers a call with some arguments. -/
def invoke (t : Tool) (handler : Handler σ) (ctx : Context) (arguments : Option Json.Members) :
    StateM σ ToolResult :=
  handler t.operation (t.envelope.decompose t.operation arguments) ctx

/-- The tool as the last link of a chain. -/
def link (t : Tool) (handler : Handler σ) : Link σ where
  order := Link.terminalOrder
  answer ctx call _ := return .ok (← t.invoke handler ctx call.arguments)

end Tool

/-- The tools of a description, in the order of its operations. -/
abbrev Catalog := List Tool

/-- How operations become tools. -/
structure Compiler where
  naming : Naming
  envelope : Envelope
  headsWithSummary : Bool
deriving DecidableEq, Repr, Inhabited

namespace Compiler

/-- A text that is there and not blank. -/
def substantial (s : Option String) : Option String := s.filter (!Text.isBlank ·)

/-- The description of a tool: the long one under the summary as a heading, or whichever is there.
-/
def description (c : Compiler) (op : Operation) : Option String :=
  match substantial op.summary, substantial op.description with
  | some summary, some long =>
    some (if c.headsWithSummary then "# " ++ summary ++ "\n\n" ++ long else long)
  | none, some long => some long
  | summary, none => summary

/-- The schema of an operation that takes no arguments. -/
def emptySchema : Json.Members := ⟨[("type", .str "object"), ("properties", .obj .empty)]⟩

/-- A failure to register the tool of an operation. -/
def failure (op : Operation) (message : String) : Error :=
  .registration op.method op.path message

def tool (c : Compiler) (op : Operation) : Except Error Tool :=
  match c.naming.name op with
  | .error e => .error (failure op e.message)
  | .ok name =>
    let title := (substantial op.summary).getD name
    match c.envelope.compose op with
    | none => .ok ⟨⟨name, title, c.description op, emptySchema⟩, op, c.envelope⟩
    | some (.obj schema) => .ok ⟨⟨name, title, c.description op, schema⟩, op, c.envelope⟩
    | some other =>
      .error (failure op ("composed input schema is not an object: " ++ other.render))

/-- The catalog of a description; the first operation without a tool is reported. -/
def catalog (c : Compiler) (d : Document) : Except Error Catalog := (Operation.all d).mapM c.tool

end Compiler

end ToolGateway
