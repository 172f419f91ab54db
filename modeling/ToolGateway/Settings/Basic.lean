import ToolGateway.Cron
import ToolGateway.Operation.Arguments
import ToolGateway.Operation.Naming
import ToolGateway.Settings.Field
import ToolGateway.Source.Reading

/-!
# Settings

Everything that can be set, with what holds when it is not, and the check that settings can be
worked with. The check reports the first fault it finds.
-/

namespace ToolGateway

/-- Settings of the client that calls the described API; times are in seconds. -/
structure ClientSettings where
  connectTimeout : Nat
  readTimeout : Nat
  userAgent : Option String
  maxResponseBytes : Option Nat
deriving DecidableEq, Repr, Inhabited

/-- The longest time that can be waited is shorter than this number of seconds. -/
def ClientSettings.endOfTime : Nat := 0x10000000000000000

/-- The time for a whole exchange, none when it is too long to be waited. -/
def ClientSettings.timeout? (s : ClientSettings) : Option Nat :=
  let seconds := s.connectTimeout + s.readTimeout
  if seconds < endOfTime then some seconds else none

/-- Which base URL is taken for the API: that of the server at a place, or one that is given. -/
inductive BaseUrlChoice where
  | server (index : Nat)
  | explicit (url : String)
deriving DecidableEq, Repr, Inhabited

/-- Reads a choice that is written as one text: a number of 64 bits is the place of a server. -/
def BaseUrlChoice.ofText? (text : String) : Option BaseUrlChoice :=
  let text := Text.trim text
  if text.isEmpty then none
  else
    match (decimal? ((Text.afterStart? text "+").getD text)).filter (· < 0x10000000000000000) with
    | some n => some (.server n)
    | none => some (.explicit text)

/-- Settings of the tools. -/
structure ToolSettings where
  naming : Naming
  envelope : Envelope
  unwrapsStrings : Bool
  headsWithSummary : Bool
  mock : Bool
deriving DecidableEq, Repr, Inhabited

/-- Settings of the reloads. -/
structure ReloadSettings where
  enabled : Bool
  schedule : String
  attempts : Nat
deriving DecidableEq, Repr, Inhabited

/-- How the scopes to ask for are chosen: all that are found, or a few that cover every need. -/
inductive ScopeChoice where
  | all
  | greedy
deriving DecidableEq, Repr, Inhabited

/-- Settings of the discovery of scopes; both lists are separated by commas. -/
structure ScopeSettings where
  enabled : Bool
  extensions : String
  mandatory : String
  choice : ScopeChoice
deriving DecidableEq, Repr, Inhabited

structure Settings where
  location : String
  baseUrl : Option BaseUrlChoice
  client : ClientSettings
  check : DigestCheck
  filters : Dict Bool
  tools : ToolSettings
  reload : ReloadSettings
  scopes : ScopeSettings
deriving Repr, Inhabited

/-! ### What holds when nothing is set -/

/-- The usual client. -/
def ClientSettings.usual : ClientSettings := ⟨5, 5, some "openapi-mcp", none⟩

def Naming.usual : Naming := ⟨.sanitizedId, none⟩

def Envelope.usual : Envelope := ⟨"parameters", "requestBody"⟩

def ToolSettings.usual : ToolSettings := ⟨.usual, .usual, true, true, false⟩

def ReloadSettings.usual : ReloadSettings := ⟨false, "0 */10 * * * *", 3⟩

def ScopeSettings.usual : ScopeSettings := ⟨false, "", "", .all⟩

/-! ### Words -/

/-- The words for the sources of names. -/
def NameSource.words : List (String × NameSource) :=
  [("operationId", .operationId), ("sanitizedOperationId", .sanitizedId), ("endpoint", .endpoint)]

def DigestPolicy.words : List (String × DigestPolicy) :=
  [("warn", .warn), ("fail", .fail), ("ignore", .ignore)]

def ScopeChoice.words : List (String × ScopeChoice) := [("none", .all), ("greedy", .greedy)]

/-- The word for one of several values. -/
def Settings.wordOf [BEq α] (words : List (String × α)) (a : α) : String :=
  ((words.find? (·.2 == a)).map (·.1)).getD ""

/-! ### Reading -/

namespace Settings

def client? (v : Yaml) : Option ClientSettings := do
  let fs ← fields? ["connectTimeoutSecs", "readTimeoutSecs", "userAgent", "maxResponseBytes"] v
  return ⟨← field fs "connectTimeoutSecs" number? 5, ← field fs "readTimeoutSecs" number? 5,
    ← field fs "userAgent" (optional? text?) ClientSettings.usual.userAgent,
    ← field fs "maxResponseBytes" (optional? number?) none⟩

/-- Reads the choice of a base URL. -/
def baseUrl? : Yaml → Option BaseUrlChoice
  | .int n => (number? (.int n)).map .server
  | .str s => some (.explicit s)
  | _ => none

def naming? (v : Yaml) : Option Naming := do
  let fs ← fields? ["strategy", "maxLength"] v
  return ⟨← field fs "strategy" (word? NameSource.words) .sanitizedId,
    ← field fs "maxLength" (optional? number?) none⟩

def envelope? (v : Yaml) : Option Envelope := do
  let fs ← fields? ["parametersKey", "requestBodyKey"] v
  return ⟨← field fs "parametersKey" text? Envelope.usual.parametersKey,
    ← field fs "requestBodyKey" text? Envelope.usual.bodyKey⟩

def tools? (v : Yaml) : Option ToolSettings := do
  let fs ← fields? ["naming", "schema", "jsonDoubleSerializationMitigation",
    "prependSummaryToDescription", "mock"] v
  return ⟨← field fs "naming" naming? .usual, ← field fs "schema" envelope? .usual,
    ← field fs "jsonDoubleSerializationMitigation" flag? true,
    ← field fs "prependSummaryToDescription" flag? true, ← field fs "mock" flag? false⟩

def reload? (v : Yaml) : Option ReloadSettings := do
  let fs ← fields? ["enabled", "cronExpression", "maxRetries"] v
  return ⟨← field fs "enabled" flag? false,
    ← field fs "cronExpression" text? ReloadSettings.usual.schedule,
    ← field fs "maxRetries" (below? 0x100000000) ReloadSettings.usual.attempts⟩

def scopes? (v : Yaml) : Option ScopeSettings := do
  let fs ← fields? ["enabled", "scopeExtensions", "mandatoryScopes", "calculateMinimalScopes"] v
  return ⟨← field fs "enabled" flag? false, ← field fs "scopeExtensions" text? "",
    ← field fs "mandatoryScopes" text? "",
    ← field fs "calculateMinimalScopes" (word? ScopeChoice.words) .all⟩

/-- The names of the engine's settings, in their order. -/
def names : List String :=
  ["openApiUrl", "apiBaseUrl", "connectTimeout", "readTimeout", "userAgent", "maxResponseBytes",
    "specHash", "specHashPolicy", "filters", "tools", "liveReload", "scopeDiscovery"]

/-- Reads the engine's settings from their fields; the location must be there. -/
def ofFields? (fs : Fields) : Option Settings := do
  let location ← fs.get? "openApiUrl"
  return {
    location := ← text? location
    baseUrl := ← field fs "apiBaseUrl" (optional? baseUrl?) none
    client := ⟨← field fs "connectTimeout" number? 5, ← field fs "readTimeout" number? 5,
      ← field fs "userAgent" (optional? text?) ClientSettings.usual.userAgent,
      ← field fs "maxResponseBytes" (optional? number?) none⟩
    check := ⟨← field fs "specHash" (optional? text?) none,
      ← field fs "specHashPolicy" (word? DigestPolicy.words) .warn⟩
    filters := ← field fs "filters" switches? .empty
    tools := ← field fs "tools" tools? .usual
    reload := ← field fs "liveReload" reload? .usual
    scopes := ← field fs "scopeDiscovery" scopes? .usual }

def read? (v : Yaml) : Option Settings := (fields? names v).bind ofFields?

end Settings

/-! ### Checking -/

/-- The schedule of the reloads. -/
def ReloadSettings.schedule? (r : ReloadSettings) : Except Error Cron.Schedule :=
  match Cron.parse? r.schedule with
  | some s => .ok s
  | none => .error (.config s!"liveReload.cronExpression '{r.schedule}' is invalid")

/-- Refuses settings that cannot be worked with. -/
def Settings.validate (s : Settings) : Except Error Unit :=
  let keys := s.tools.envelope
  if Text.isBlank s.location then .error (.config "openApiUrl must not be empty")
  else if s.tools.naming.maxLength = some 0 then
    .error (.config "tools.naming.maxLength must be greater than 0")
  else if keys.parametersKey.isEmpty || keys.bodyKey.isEmpty then
    .error (.config "tools.schema keys must not be empty")
  else if keys.parametersKey = keys.bodyKey then
    .error (.config ("tools.schema.parametersKey and requestBodyKey must differ (both '" ++
      keys.parametersKey ++ "')"))
  else if s.reload.attempts = 0 then
    .error (.config "liveReload.maxRetries must be greater than 0")
  else s.reload.schedule?.map fun _ => ()

/-- The names in a list that is separated by commas. -/
def Settings.commaList (text : String) : List String :=
  ((Text.splitOn ',' text).map Text.trim).filter (!·.isEmpty)

end ToolGateway
