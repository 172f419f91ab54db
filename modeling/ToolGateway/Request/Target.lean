import ToolGateway.Error
import ToolGateway.Request.Basic
import ToolGateway.Url.Parser

/-!
# Where a request goes

The target of a request is the base URL of the API without trailing slashes, then the path with its
values, then the query.
-/

namespace ToolGateway.Request

def targetText (r : Request) (base : Url) : Except CallFault String :=
  match r.renderPath with
  | .error e => .error (.runtime e.message)
  | .ok path =>
    let start := Text.trimEnd '/' base.render
    let path := if Text.startsWith path "/" then path else "/" ++ path
    .ok (start ++ path ++
      (match r.queryText with
        | some q => "?" ++ q
        | none => ""))

/-- The target, none when its text is not a URL. -/
def target (r : Request) (base : Url) : Except CallFault Url :=
  match r.targetText base with
  | .error e => .error e
  | .ok text =>
    match Url.parse text with
    | .ok u => .ok u
    | .error e => .error (.runtime ("invalid request URL: " ++ e.message))

end ToolGateway.Request
