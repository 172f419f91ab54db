import ToolGateway.Exchange.Client
import ToolGateway.Exchange.Correction
import ToolGateway.Operation.Arguments
import ToolGateway.Tool.Call

/-!
# Handling a call

The arguments of a call become a request, and the reply becomes the result. When the API refuses a
JSON body as a bad request and the body holds strings with JSON in them, the request is sent once
more with the corrected body.
-/

namespace ToolGateway

/-- Answers the call of an operation with its arguments. -/
abbrev Handler (σ : Type) := Operation → Arguments → Context → StateM σ ToolResult

namespace Handler

/-- The result of a call that has no outcome. -/
def badGateway : ToolResult :=
  .failure (Json.object [("error", .str "Bad Gateway"), ("description",
    .str "The server received an invalid response from an upstream server.")]).render

/-- What is said when a call succeeds without a body. -/
def defaultSuccess : String :=
  (Json.object [("message", .str "Tool call completed successfully")]).render

def resultOf (o : Outcome) : ToolResult :=
  if o.isError then .failure o.body
  else .success (if o.body.isEmpty then defaultSuccess else o.body)

def result : Except CallFault Outcome → ToolResult
  | .ok o => resultOf o
  | .error _ => badGateway

/-- The request to send after an outcome, when there is one. -/
def again? (corrects : Bool) (r : Request) (o : Outcome) : Option Request := do
  if !corrects || o.status != 400 then none
  let payload ← r.payload
  if !MediaType.offersJson payload.contentType then none
  let content ← Correction.correct? payload.content
  return { r with payload := some { payload with content } }

/-- Calls the API. -/
def ofClient (c : Client) (corrects : Bool) (server : Server σ) : Handler σ :=
  fun op arguments ctx => do
    let r := arguments.toRequest op
    let first ← c.execute server r ctx.authorization
    match first.toOption.bind (again? corrects r) with
    | some again => return result (← c.execute server again ctx.authorization)
    | none => return result first

end Handler

end ToolGateway
