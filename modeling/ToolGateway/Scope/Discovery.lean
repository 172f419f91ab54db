import ToolGateway.Json.Printer
import ToolGateway.Operation.Basic
import ToolGateway.Scope.Cover
import ToolGateway.Settings.Basic

/-!
# Scopes that clients need

The scopes that a client should ask for are found in the description: in an extension of each
operation, or in the security requirements. Each requirement gives a group of scopes, one of which
is needed. Some scopes are asked for in any case.
-/

namespace ToolGateway

structure Discovery where
  extensions : List String
  mandatory : List String
  choice : ScopeChoice
deriving DecidableEq, Repr, Inhabited

namespace Discovery

def ofSettings (s : ScopeSettings) : Discovery :=
  ⟨Settings.commaList s.extensions, Settings.commaList s.mandatory, s.choice⟩

/-! ### Scopes in extensions -/

/-- The scope that an item of a list names. -/
def itemScope : Json → Option String
  | .str s => some (Text.trim s)
  | .null => none
  | v => some v.render

/-- The scopes in an extension: the items of a list, or a text that is separated by commas. -/
def scopesOf : Json → List String
  | .arr items => (items.filterMap itemScope).filter (!·.isEmpty)
  | .str s => Settings.commaList s
  | _ => []

/-- The group of an operation: that of the first of some extensions that it has. -/
def extensionGroup (names : List String) (op : Operation) : List String :=
  ((names.findSome? op.extension?).map scopesOf).getD []

/-! ### Scopes in security requirements -/

def isScoped (scheme : Json) : Bool :=
  scheme.getStr? "type" == some "oauth2" || scheme.getStr? "type" == some "openIdConnect"

/-- The names of the schemes that have scopes. -/
def scopedSchemes (d : Document) : List String :=
  ((d.securitySchemes.getD .empty).entries.filter fun (_, scheme) => isScoped scheme).map (·.1)

/-- The groups of one requirement, one for each scheme with scopes. -/
def requirementGroups (schemes : List String) (requirement : Json.Members) : List (List String) :=
  let groups := requirement.entries.filterMap fun (scheme, scopes) =>
    if schemes.contains scheme then some ((scopes.arr?.getD []).filterMap Json.str?) else none
  groups.filter (!·.isEmpty)

/-- The groups of a list of requirements, of which one has to be met. An empty requirement is always
met, and then no scopes are needed. -/
def securityGroups (schemes : List String) (requirements : List Json) : List (List String) :=
  let requirements := requirements.filterMap Json.obj?
  if requirements.any (·.isEmpty) then [] else requirements.flatMap (requirementGroups schemes)

/-- The groups of all operations with requirements of their own, then those that hold for the
others. -/
def allSecurityGroups (d : Document) : List (List String) :=
  let schemes := scopedSchemes d
  let own := (Operation.all d).map (·.body.getArr? "security")
  own.flatMap (fun requirements => securityGroups schemes (requirements.getD [])) ++
    (if own.any (·.isNone) then securityGroups schemes (d.security.getD []) else [])

/-! ### What to ask for -/

/-- The groups of a description; none of them is empty. -/
def groups (c : Discovery) (d : Document) : List (List String) :=
  if c.extensions.isEmpty then allSecurityGroups d
  else ((Operation.all d).map (extensionGroup c.extensions)).filter (!·.isEmpty)

/-- The scopes that a client should ask for. -/
def discover (c : Discovery) (d : Document) : List String :=
  let found := match c.choice with
    | .all => Scope.setOf (c.groups d).flatten
    | .greedy => Scope.cover (c.groups d)
  Scope.insertAll found c.mandatory

end Discovery

end ToolGateway
