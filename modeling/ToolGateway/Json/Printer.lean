import ToolGateway.Json.Basic
import ToolGateway.Text.Decimal
import ToolGateway.Text.Hex

/-!
# JSON texts

`Json.render` writes a value compactly; `Json.pretty` writes it over several lines with an indent of
two. Control characters below U+0020 are escaped, everything else but quotes and backslashes is
written as it is. A float is written with its shortest digits and never looks like an integer.
-/

namespace ToolGateway

namespace Binary64

/-- A run of zeros. -/
def zeros (n : Nat) : String := String.ofList (List.replicate n '0')

/-- The layout of the decimal 0.`digits` · 10ᵖ: positional for -5 < p ≤ 16, with an exponent
otherwise, and always with a fraction or an exponent. -/
def layout (digits : String) (p : Int) : String :=
  let n := digits.length
  if 0 < p ∧ p ≤ 16 then
    let k := p.toNat
    if n ≤ k then digits ++ zeros (k - n) ++ ".0"
    else String.ofList (digits.toList.take k) ++ "." ++ String.ofList (digits.toList.drop k)
  else if -5 < p ∧ p ≤ 0 then "0." ++ zeros (-p).toNat ++ digits
  else
    let e := p - 1
    let mantissa := match digits.toList with
      | [] => "0"
      | [d] => String.ofList [d]
      | d :: rest => String.ofList (d :: '.' :: rest)
    mantissa ++ (if e < 0 then "e-" else "e+") ++ decimal e.natAbs

def render (x : Binary64) : String :=
  let sign := if x.negative then "-" else ""
  if x.units = 0 then sign ++ "0.0"
  else
    let (d, e) := shortest x.units
    let digits := decimal d
    sign ++ layout digits (digits.length + e)

end Binary64

namespace Json

/-- A character as it stands in a quoted string. -/
def escape (c : Char) : List Char :=
  if c = '"' then ['\\', '"']
  else if c = '\\' then ['\\', '\\']
  else if c = '\x08' then ['\\', 'b']
  else if c = '\x0c' then ['\\', 'f']
  else if c = '\n' then ['\\', 'n']
  else if c = '\r' then ['\\', 'r']
  else if c = '\t' then ['\\', 't']
  else if c.toNat < 32 then
    ['\\', 'u', '0', '0', hexDigit (c.toNat / 16), hexDigit (c.toNat % 16)]
  else [c]

/-- A string in quotes. -/
def quote (s : String) : String := String.ofList ('"' :: s.toList.flatMap escape ++ ['"'])

mutual

/-- The compact text of a value. -/
def render : Json → String
  | .null => "null"
  | .bool b => if b then "true" else "false"
  | .int n => decimalInt n
  | .float x => x.render
  | .str s => quote s
  | .arr xs => "[" ++ ",".intercalate (renderItems xs) ++ "]"
  | .obj ⟨ms⟩ => "\x7b" ++ ",".intercalate (renderMembers ms) ++ "\x7d"

def renderItems : List Json → List String
  | [] => []
  | x :: xs => render x :: renderItems xs

def renderMembers : List (String × Json) → List String
  | [] => []
  | (k, v) :: rest => (quote k ++ ":" ++ render v) :: renderMembers rest

end

/-- Lines between brackets, one per part, indented by `depth + 1` steps of two blanks. -/
def block (opening closing : String) (depth : Nat) (parts : List String) : String :=
  if parts.isEmpty then opening ++ closing
  else
    let indent := String.ofList (List.replicate (2 * depth) ' ')
    opening ++ "\n" ++ ",\n".intercalate (parts.map (indent ++ "  " ++ ·)) ++ "\n" ++ indent ++
      closing

mutual

/-- The text of a value that starts at an indent of `depth` steps. -/
def prettyAt (depth : Nat) : Json → String
  | .arr xs => block "[" "]" depth (prettyItems (depth + 1) xs)
  | .obj ⟨ms⟩ => block "\x7b" "\x7d" depth (prettyMembers (depth + 1) ms)
  | v => render v

def prettyItems (depth : Nat) : List Json → List String
  | [] => []
  | x :: xs => prettyAt depth x :: prettyItems depth xs

def prettyMembers (depth : Nat) : List (String × Json) → List String
  | [] => []
  | (k, v) :: rest => (quote k ++ ": " ++ prettyAt depth v) :: prettyMembers depth rest

end

/-- The text of a value over several lines, without a final line end. -/
def pretty (v : Json) : String := prettyAt 0 v

end Json

end ToolGateway
