import ToolGateway.BaseUrl
import ToolGateway.Reload.Cycle
import ToolGateway.Scope.Discovery
import ToolGateway.Settings.Load
import ToolGateway.Tool.Mock

/-!
# The gateway

The gateway serves one description as tools: it reads the description, compiles and publishes its
tools, and keeps them up to date.
-/

namespace ToolGateway

structure Gateway (σ : Type) where
  settings : GatewaySettings
  tools : Toolset
  published : Published σ
  discovery : Option Discovery

namespace Gateway

/-- Checks that descriptions can be fetched with the settings of a client. -/
def checkClient (s : ClientSettings) : Except Error Unit :=
  if s.timeout?.isNone then .error .tooLong
  else if (s.userAgent.filter (!Text.isBlank ·)).any (!Outgoing.isHeaderValue ·) then
    .error (.config "failed to build HTTP client: builder error")
  else .ok ()

/-- The registry of the description that settings name. -/
def registry (w : World) (s : Settings) : Except Error Registry := do
  checkClient s.client
  Registry.load w s.location s.check s.filters

def compiler (s : ToolSettings) : Compiler := ⟨s.naming, s.envelope, s.headsWithSummary⟩

def sessions : SessionMode → Sessions
  | .stateful => .stateful .empty
  | .stateless => .stateless

/-- Sets the gateway up and publishes the tools. The base URL is chosen once and stays. -/
def build (w : World) (server : Server σ) (settings : GatewaySettings) :
    Except Error (Gateway σ) := do
  let s := settings.engine
  let registry ← registry w s
  let base ← BaseUrl.resolve s.baseUrl registry.document registry.location
  let client ← Client.build s.client base
  let handler := Handler.ofClient client s.tools.unwrapsStrings server
  let _ ← s.tools.naming.check
  let (catalog, tools) := (Toolset.ofRegistry registry (compiler s.tools)).compile
  let published := (Published.none [Mock.link s.tools.mock] handler
    (sessions settings.session)).addAll (← catalog)
  let discovery := if s.scopes.enabled then some (Discovery.ofSettings s.scopes) else none
  return { settings, tools, published, discovery }

/-- The scopes that clients should ask for, when they are to be found. -/
def scopes (g : Gateway σ) : Option (List String) :=
  g.discovery.map (·.discover g.tools.registry.document)

/-- The tools and the scopes, as JSON. -/
def catalog (g : Gateway σ) : Json :=
  .object [("tools", .arr g.published.listing), ("scopes", .orNull (g.scopes.map Json.strings))]

def reloads (g : Gateway σ) : Bool := g.settings.engine.reload.enabled

def call (g : Gateway σ) (ctx : Context) (call : ToolCall) : StateM σ ToolResult :=
  g.published.call ctx call

/-- Runs one reload cycle: what came of it, and the connections that were told about changes. -/
def runCycle (r : Reload.Surroundings) (reaches : Peer → Bool) (attempts : Nat) (g : Gateway σ) :
    ReloadOutcome × List Peer × Gateway σ :=
  let (outcome, shared, changes) := Reload.run r attempts ⟨g.tools, false⟩
  let (told, published) := g.published.applyAll reaches changes
  (outcome, told, { g with tools := shared.tools, published })

end Gateway

end ToolGateway
