import ToolGateway.Binary64
import ToolGateway.Dict

/-!
# JSON values

Objects keep the order of their members. Integers of 64 bits are kept apart from all other numbers:
`1` and `1.0` are different values. `Json.same` is the equality of values, which does not see the
order of members.
-/

namespace ToolGateway

/-- A JSON value. Integers are those of 64 bits, signed or not; every other number is a double. -/
inductive Json where
  | null
  | bool (b : Bool)
  | int (n : Int)
  | float (x : Binary64)
  | str (s : String)
  | arr (items : List Json)
  | obj (members : Dict Json)
deriving Repr, Inhabited

namespace Json

abbrev Members := Dict Json

def object (members : List (String × Json)) : Json := .obj ⟨members⟩

/-- The member of an object under a key; other values have none. -/
def get? : Json → String → Option Json
  | .obj ms, key => ms.get? key
  | _, _ => none

def str? : Json → Option String
  | .str s => some s
  | _ => none

def bool? : Json → Option Bool
  | .bool b => some b
  | _ => none

def arr? : Json → Option (List Json)
  | .arr xs => some xs
  | _ => none

def obj? : Json → Option Members
  | .obj ms => some ms
  | _ => none

def getStr? (v : Json) (key : String) : Option String := (v.get? key).bind str?

def getArr? (v : Json) (key : String) : Option (List Json) := (v.get? key).bind arr?

def getObj? (v : Json) (key : String) : Option Members := (v.get? key).bind obj?

def isNull : Json → Bool
  | .null => true
  | _ => false

def isObj : Json → Bool
  | .obj _ => true
  | _ => false

def ofStr? : Option String → Json
  | some s => .str s
  | none => .null

def orNull : Option Json → Json
  | some v => v
  | none => .null

def strings (ss : List String) : Json := .arr (ss.map .str)

mutual

/-- Equality of values: the order of an object's members does not count, and the two float zeros
are equal. -/
def same : Json → Json → Bool
  | .null, .null => true
  | .bool a, .bool b => a == b
  | .int a, .int b => a == b
  | .float a, .float b => a.equals b
  | .str a, .str b => a == b
  | .arr xs, .arr ys => sameItems xs ys
  | .obj ⟨xs⟩, .obj ys => xs.length == ys.size && sameMembers xs ys
  | _, _ => false

def sameItems : List Json → List Json → Bool
  | [], [] => true
  | x :: xs, y :: ys => same x y && sameItems xs ys
  | _, _ => false

/-- Whether every entry has an equal value under its key in a dictionary. -/
def sameMembers : List (String × Json) → Members → Bool
  | [], _ => true
  | (k, v) :: rest, ys =>
    (match ys.get? k with
      | some w => same v w
      | none => false) && sameMembers rest ys

end

end Json

end ToolGateway
