import ToolGateway.Yaml.Value

/-!
# Reading settings

Settings are read from YAML values, of which JSON values are a part. A group of settings is a
mapping, or a list of its fields in their order. Keys that are unknown are left out, and a number as
a key stands for the field at that place. A field that is there must have the right kind of value.
-/

namespace ToolGateway.Settings

/-- The fields of a group that are there. -/
abbrev Fields := Dict Yaml

/-- Takes an entry of a mapping, for the given names of fields. -/
def takeEntry (names : List String) (done : Fields) (entry : Yaml × Yaml) : Option Fields :=
  let add (name : String) := if done.contains name then none else some (done.insert name entry.2)
  match entry.1 with
  | .str name => if names.contains name then add name else some done
  | .int n =>
    if n < 0 then none
    else
      match names[n.toNat]? with
      | some name => add name
      | none => some done
  | _ => none

/-- The fields of a group. -/
def fields? (names : List String) : Yaml → Option Fields
  | .map entries => entries.foldlM (takeEntry names) .empty
  | .list items => if items.length ≤ names.length then some ⟨names.zip items⟩ else none
  | _ => none

/-- A field, or what it is when it is not there. -/
def field (fs : Fields) (name : String) (read : Yaml → Option α) (absent : α) : Option α :=
  match fs.get? name with
  | some v => read v
  | none => some absent

def text? : Yaml → Option String
  | .str s => some s
  | _ => none

def flag? : Yaml → Option Bool
  | .bool b => some b
  | _ => none

/-- A natural number below a bound. -/
def below? (bound : Nat) : Yaml → Option Nat
  | .int n => if 0 ≤ n ∧ n < bound then some n.toNat else none
  | _ => none

def number? : Yaml → Option Nat := below? 0x10000000000000000

/-- A setting that null leaves open. -/
def optional? (read : Yaml → Option α) : Yaml → Option (Option α)
  | .null => some none
  | v => (read v).map some

/-- One of several words, alone or as the only key of a mapping without a value. -/
def word? (words : List (String × α)) : Yaml → Option α
  | .str s => words.lookup s
  | .map [(.str s, .null)] => words.lookup s
  | .map [(.int n, .null)] => if n < 0 then none else (words[n.toNat]?).map (·.2)
  | _ => none

/-- Truth values by name. -/
def switches? : Yaml → Option (Dict Bool)
  | .map entries =>
    (entries.mapM fun (k, v) => do return (← text? k, ← flag? v)).map Dict.ofList
  | _ => none

end ToolGateway.Settings
