import ToolGateway.Exchange.Basic
import ToolGateway.Settings.Basic

/-!
# The client of the described API

A client knows where the API is and what it adds to every request: credentials that are passed on,
its own name, and the wish for JSON unless the request has a wish of its own.
-/

namespace ToolGateway

structure Client where
  base : Url
  userAgent : Option String
  maxResponseBytes : Option Nat
deriving Repr, Inhabited

namespace Client

def ofSettings (s : ClientSettings) (base : Url) : Client :=
  ⟨base, s.userAgent.filter (!·.isEmpty), s.maxResponseBytes⟩

/-- The client for settings; there is none when an exchange would take longer than can be waited. -/
def build (s : ClientSettings) (base : Url) : Except Error Client :=
  if s.timeout?.isNone then .error .tooLong else .ok (ofSettings s base)

/-- The headers of a request, in the order they are added. -/
def headers (c : Client) (r : Request) (authorization : Option String) : List (String × String) :=
  r.headerPairs ++
    (r.cookieText.map (("cookie", ·))).toList ++
    (((authorization.map Text.trim).filter (!·.isEmpty)).map (("authorization", ·))).toList ++
    (c.userAgent.map (("user-agent", ·))).toList ++
    (if r.hasHeader "accept" then [] else [("accept", "application/json")]) ++
    (r.payload.map fun p => ("content-type", p.contentType)).toList

/-- The message that carries a request. -/
def outgoing (c : Client) (r : Request) (authorization : Option String) :
    Except CallFault Outgoing :=
  (r.target c.base).map fun url =>
    { method := r.method, url, headers := c.headers r authorization
      body := r.payload.map (·.content.render) }

def outcome (c : Client) : Option Reply → Except CallFault Outcome
  | none => .error .transport
  | some r => (r.text c.maxResponseBytes).map fun body => ⟨r.status, r.contentType, body⟩

def execute (c : Client) (server : Server σ) (r : Request) (authorization : Option String) :
    StateM σ (Except CallFault Outcome) :=
  match c.outgoing r authorization with
  | .error e => return .error e
  | .ok m =>
    if m.isSendable then return c.outcome (← server m) else return .error .transport

end Client

end ToolGateway
