import ToolGateway.Json.Reader
import ToolGateway.Text.Basic

/-!
# Strings that hold JSON

Some clients write an object or a list as a string that holds its JSON text. A correction puts the
value in place of such a string, at any depth and however often it was wrapped.
-/

namespace ToolGateway.Correction

/-- The value in a string that is an object or a list written as JSON, blanks around it aside. -/
def inner? (s : String) : Option Json :=
  let t := Text.trim s
  if (Text.startsWith t "\x7b" && Text.endsWith t "\x7d") ||
      (Text.startsWith t "[" && Text.endsWith t "]") then Json.parse? t
  else none

mutual

/-- The length of the longest string in a value. -/
def longest : Json → Nat
  | .str s => s.length
  | .arr items => longestItem items
  | .obj ⟨members⟩ => longestMember members
  | _ => 0

def longestItem : List Json → Nat
  | [] => 0
  | v :: rest => max (longest v) (longestItem rest)

def longestMember : List (String × Json) → Nat
  | [] => 0
  | (_, v) :: rest => max (longest v) (longestMember rest)

end

mutual

/-- Puts a value in place of each string of a value. -/
def mapStrings (f : String → Json) : Json → Json
  | .str s => f s
  | .arr items => .arr (mapItems f items)
  | .obj ⟨members⟩ => .obj ⟨mapMembers f members⟩
  | v => v

def mapItems (f : String → Json) : List Json → List Json
  | [] => []
  | v :: rest => mapStrings f v :: mapItems f rest

def mapMembers (f : String → Json) : List (String × Json) → List (String × Json)
  | [] => []
  | (k, v) :: rest => (k, mapStrings f v) :: mapMembers f rest

end

/-- Puts the values in place of the strings that hold them, for strings up to a length. A string
inside such a value is shorter than the string it was in. -/
def unwrapWithin : Nat → Json → Json
  | 0, v => v
  | n + 1, v => mapStrings (fun s =>
      match inner? s with
      | some w => unwrapWithin n w
      | none => .str s) v

/-- Puts the values in place of all strings that hold them. -/
def unwrap (v : Json) : Json := unwrapWithin (longest v) v

/-- The corrected value, none when there is nothing to correct. -/
def correct? (v : Json) : Option Json :=
  let w := unwrap v
  if w.same v then none else some w

end ToolGateway.Correction
