import ToolGateway.Settings.Basic
import ToolGateway.World.Files

/-!
# Loading settings

The settings of the whole gateway stand in one YAML file: those of the engine, and how clients learn
about changes. The location of the description can also be given by itself, and then it counts
before the file's.
-/

namespace ToolGateway

/-- Whether clients have sessions and are told about changes, or have to look themselves. -/
inductive SessionMode where
  | stateful
  | stateless
deriving DecidableEq, Repr, Inhabited

structure GatewaySettings where
  engine : Settings
  session : SessionMode
deriving Repr, Inhabited

/-- Why the gateway cannot be set up. -/
inductive SetupFault where
  | unreadable (path : String) (fault : FileFault)
  | notMapping
  | noLocation
  | undecodable
  | engine (e : Error)
deriving DecidableEq, Repr, Inhabited

def SetupFault.message : SetupFault → String
  | .unreadable path fault =>
    s!"Configuration error: failed to read config file '{path}': " ++ fault.message
  | .notMapping => "Configuration error: config file must contain a YAML mapping"
  | .noLocation =>
    "Configuration error: openApiUrl is required (set it in the config file or pass --spec)"
  | .undecodable => "YAML error: the settings could not be decoded"
  | .engine e => e.message

namespace GatewaySettings

/-- The words for the modes of sessions. -/
def modes : List (String × SessionMode) := [("stateful", .stateful), ("stateless", .stateless)]

/-- Reads a mode: a word, or a tag without a value. -/
def mode? : Yaml → Option SessionMode
  | .str s => modes.lookup s
  | .tagged tag .null => modes.lookup tag
  | _ => none

/-- A value without the tags around it. -/
def untagged : Yaml → Yaml
  | .tagged _ v => untagged v
  | v => v

mutual

/-- Whether a value has a tag anywhere. -/
def hasTag : Yaml → Bool
  | .tagged .. => true
  | .list items => itemsHaveTag items
  | .map entries => entriesHaveTag entries
  | _ => false

def itemsHaveTag : List Yaml → Bool
  | [] => false
  | v :: rest => hasTag v || itemsHaveTag rest

def entriesHaveTag : List (Yaml × Yaml) → Bool
  | [] => false
  | (k, v) :: rest => hasTag k || hasTag v || entriesHaveTag rest

end

/-- Sets the location among the entries of a mapping. -/
def withLocation (location : String) (entries : List (Yaml × Yaml)) : List (Yaml × Yaml) :=
  let here (e : Yaml × Yaml) := e.1.same (.str "openApiUrl")
  if entries.any here then entries.map fun e => if here e then (e.1, .str location) else e
  else entries ++ [(.str "openApiUrl", .str location)]

/-- The entries by name. Every key must be a text; apart from the mode of sessions no value may have
a tag. -/
def named? (entries : List (Yaml × Yaml)) : Option Settings.Fields :=
  entries.foldlM (fun done (k, v) => do
    let name ← Settings.text? (untagged k)
    if done.contains name || (name != "sessionMode" && hasTag v) then none
    else return done.insert name v) .empty

/-- Decodes the entries of a settings file. -/
def decode? (entries : List (Yaml × Yaml)) : Option GatewaySettings := do
  let fs ← named? entries
  let session ← Settings.field fs "sessionMode" mode? .stateful
  return ⟨← Settings.ofFields? fs, session⟩

/-- The value of a settings file, null without one. -/
def value (files : Files) : Option String → Except SetupFault Yaml
  | none => .ok .null
  | some path =>
    match files.read path with
    | .error e => .error (.unreadable path e)
    | .ok text =>
      match Yaml.parse? text with
      | some v => .ok v
      | none => .error .undecodable

/-- Loads the settings from a file, if there is one, and a location, if one is given. -/
def load (files : Files) (path location : Option String) : Except SetupFault GatewaySettings := do
  let v ← value files path
  let entries ← match untagged v with
    | .null => pure []
    | .map entries => pure entries
    | _ => throw .notMapping
  let entries := match (location.map Text.trim).filter (!·.isEmpty) with
    | some l => withLocation l entries
    | none => entries
  if !entries.any fun e => e.1.same (.str "openApiUrl") then throw .noLocation
  match decode? entries with
  | none => throw .undecodable
  | some s =>
    match s.engine.validate with
    | .ok _ => return s
    | .error e => throw (.engine e)

end GatewaySettings

end ToolGateway
