import ToolGateway.Json.Printer
import ToolGateway.Tool.Call

/-!
# Mocked results

Instead of calling the API, a call can be answered with an example of a successful response from the
description. The default response is asked first, then the class of all successes, then each status
from 200 to 299.
-/

namespace ToolGateway.Mock

/-- The keys of the responses that are asked for an example, in order. -/
def successKeys : List String :=
  ["default", "2XX", "2xx"] ++ (List.range 100).map fun i => decimal (200 + i)

/-- A value that is not null. -/
def substantial (v : Option Json) : Option Json := v.filter (!·.isNull)

/-- The first example with a value among named ones. -/
def namedExample? (media : Json) : Option Json := do
  let examples ← media.getObj? "examples"
  examples.values.findSome? fun e => substantial (e.get? "value")

/-- The example of a response: a named one, else the single one, of its first JSON content. -/
def exampleOf? (response : Json) : Option Json := do
  let content ← response.getObj? "content"
  let (_, media) ← content.entries.find? fun (name, _) => Text.includes name "application/json"
  (namedExample? media).or (substantial (media.get? "example"))

/-- The example that answers a call of an operation. -/
def example? (op : Operation) : Option Json := do
  let responses ← op.responses
  (successKeys.filterMap responses.get?).findSome? exampleOf?

def result (ctx : Context) : ToolResult :=
  match ctx.operation.bind example? with
  | some v => .success v.render
  | none => .failure "Missing OpenAPI example for mocking"

/-- The link that answers with examples when it is enabled; it comes directly before the tool. -/
def link (enabled : Bool) : Link σ where
  order := Link.terminalOrder - 1
  answer ctx call next := if enabled then return .ok (result ctx) else next call

end ToolGateway.Mock
