import ToolGateway.Gateway
import ToolGateway.Report

/-!
# The command line

The gateway is started with the name of a settings file, the location of a description, or both. It
can print the tools and end, or go on and keep them up to date.
-/

namespace ToolGateway.CommandLine

structure Options where
  config : Option String
  spec : Option String
  logFormat : Option String
  printTools : Bool
deriving DecidableEq, Repr, Inhabited

inductive Command where
  | start (options : Options)
  | help
  | version
deriving DecidableEq, Repr, Inhabited

abbrev Variables := String → Option String

/-! ### Reading arguments -/

/-- Whether an argument may be the value of the option before it. -/
def isValue (s : String) : Bool := s == "-" || !Text.startsWith s "-"

def logFormats : List String := ["text", "json"]

/-- Sets an option that has a value; it must be new and have a fitting value. -/
def set? (name value : String) (o : Options) : Option Options :=
  match name with
  | "--config" =>
    if o.config.isSome || value.isEmpty then none else some { o with config := some value }
  | "--spec" => if o.spec.isSome then none else some { o with spec := some value }
  | "--log-format" =>
    if o.logFormat.isSome || !logFormats.contains value then none
    else some { o with logFormat := some value }
  | _ => none

/-- The command of a group of letters; the first one counts. -/
def letters? : List Char → Option Command
  | 'h' :: _ => some .help
  | 'V' :: _ => some .version
  | _ => none

/-- Reads arguments after those that gave `o`; none when they cannot be understood. -/
def read? (o : Options) : List String → Option Command
  | [] => some (.start o)
  | "--" :: rest => if rest.isEmpty then some (.start o) else none
  | "--help" :: _ => some .help
  | "--version" :: _ => some .version
  | "--print-tools" :: rest =>
    if o.printTools then none else read? { o with printTools := true } rest
  | arg :: rest =>
    if Text.startsWith arg "--" then
      match Text.splitOnce? '=' arg.toList with
      | some (name, value) =>
        (set? (String.ofList name) (String.ofList value) o).bind (read? · rest)
      | none =>
        match rest with
        | value :: rest => if isValue value then (set? arg value o).bind (read? · rest) else none
        | [] => none
    else
      match arg.toList with
      | '-' :: letters => letters? letters
      | _ => none

/-- Fills in what the environment says. -/
def complete? (env : Variables) (o : Options) : Option Options := do
  let o ← match o.config, env "OPENAPI_MCP_CONFIG" with
    | none, some path => set? "--config" path o
    | _, _ => some o
  return { o with spec := o.spec.or (env "OPENAPI_MCP_SPEC") }

/-- Reads the whole command line; none when it cannot be understood. -/
def parse? (env : Variables) (args : List String) : Option Command := do
  match ← read? ⟨none, none, none, false⟩ args with
  | .start o => return .start (← complete? env o)
  | other => return other

/-! ### Texts -/

def versionLine : String := "openapi-mcp-adapter 0.1.0\n"

def help (env : Variables) : String :=
  "Serve an OpenAPI document as a live-reloading set of MCP tools\n\n" ++
    "Usage: openapi-mcp-adapter [OPTIONS]\n\nOptions:\n" ++
    "      --config <CONFIG>          YAML configuration file " ++ hint "OPENAPI_MCP_CONFIG" ++
    "      --spec <SPEC>              OpenAPI document location; overrides \x60openApiUrl\x60 " ++
    "from the config file " ++ hint "OPENAPI_MCP_SPEC" ++
    "      --print-tools              Print the compiled tool catalog as JSON and exit\n" ++
    "      --log-format <LOG_FORMAT>  [default: text] [possible values: text, json]\n" ++
    "  -h, --help                     Print help\n" ++
    "  -V, --version                  Print version\n"
where
  hint (name : String) : String := "[env: " ++ name ++ "=" ++ (env name).getD "" ++ "]\n"

/-- What is said about a command line that cannot be understood. -/
def usage : String :=
  "error: unexpected arguments\n\nUsage: openapi-mcp-adapter [OPTIONS]\n\n" ++
    "For more information, try '--help'.\n"

/-! ### Running -/

/-- A failure, with what was being done. -/
structure Failure where
  context : String
  fault : SetupFault
deriving DecidableEq, Repr, Inhabited

namespace Failure

def causes (f : Failure) : List String :=
  match f.fault with
  | .engine e => e.causes
  | fault => [fault.message]

/-- The file whose absence is the cause. -/
def missing? (f : Failure) : Option String :=
  match f.fault with
  | .unreadable path .notFound | .engine (.unreadable path .notFound) => some path
  | _ => none

/-- The exit code: times that are too long are not handled. -/
def code (f : Failure) : Nat := if f.fault = .engine .tooLong then 101 else 1

end Failure

def setUp (w : World) (server : Server σ) (o : Options) : Except Failure (Gateway σ) := do
  let settings ← (GatewaySettings.load w.files o.config o.spec).mapError
    (⟨"Failed to load configuration", ·⟩)
  (Gateway.build w server settings).mapError (⟨"Failed to build the tool catalog", .engine ·⟩)

/-- How a run ends: with a code and texts for both outputs, or not by itself. -/
inductive Ending where
  | exit (code : Nat) (output errors : String)
  | serving
deriving DecidableEq, Repr, Inhabited

def run (w : World) (env : Variables) (args : List String) : Ending :=
  match parse? env args with
  | none => .exit 2 "" usage
  | some .help => .exit 0 (help env) ""
  | some .version => .exit 0 versionLine ""
  | some (.start o) =>
    match setUp w (Server.unreachable (σ := Unit)) o with
    | .error f => .exit f.code "" (Report.render f.context f.causes)
    | .ok g => if o.printTools then .exit 0 (g.catalog.pretty ++ "\n") "" else .serving

/-- The file that a run would need next. -/
def missing? (w : World) (env : Variables) (args : List String) : Option String :=
  match parse? env args with
  | some (.start o) =>
    match setUp w (Server.unreachable (σ := Unit)) o with
    | .error f => f.missing?
    | .ok _ => none
  | _ => none

end ToolGateway.CommandLine
