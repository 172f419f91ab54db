import ToolGateway.Json.Basic
import ToolGateway.Text.Basic
import ToolGateway.Text.Decimal
import ToolGateway.Text.Hex
import ToolGateway.Text.Percent

/-!
# Pointers

A pointer names a place in a JSON value by the keys and indices on the way to it. In a text each
step follows a slash, and `~0` and `~1` stand for a tilde and a slash inside a step. In the fragment
of a reference a pointer is percent-encoded as well.
-/

namespace ToolGateway.Pointer

/-- A numeral without the plus sign that may stand before its digits. -/
def unsigned : List Char → List Char
  | '+' :: digits => digits
  | digits => digits

/-- The byte that hexadecimal digits denote. -/
def byteOfDigits? (digits : List Char) : Option UInt8 :=
  if digits.isEmpty then none
  else do
    let values ← digits.mapM hexValue?
    let n := values.foldl (fun n value => 16 * n + value) 0
    if n < 256 then some (UInt8.ofNat n) else none

/-- The byte that a hexadecimal numeral denotes. -/
def byteOfHex? (numeral : String) : Option UInt8 := byteOfDigits? (unsigned numeral.toList)

/-- The byte that two bytes after a percent sign denote: their text is its numeral. -/
def pair? (a b : UInt8) : Option UInt8 := (Utf8.decode? [a, b]).bind byteOfHex?

/-- Decodes bytes from an index on, and puts the result behind what is there. None when a byte is
read that is not there. -/
def decodeFrom? (bytes : Array UInt8) (i : Nat) (out : Array UInt8) : Option (Array UInt8) :=
  if i < bytes.size then do
    let b ← bytes[i]?
    let escaped ← if b = 37 ∧ i + 2 < bytes.size then do
        let high ← bytes[i + 1]?
        let low ← bytes[i + 2]?
        some (pair? high low)
      else some none
    match escaped with
    | some v => decodeFrom? bytes (i + 3) (out.push v)
    | none => decodeFrom? bytes (i + 1) (out.push b)
  else some out
termination_by bytes.size - i

/-- The text of the pointer in a fragment. -/
def ofFragment (fragment : String) : String :=
  if Text.mentions fragment '%' then
    Utf8.decodeLossy ((decodeFrom? (Utf8.encode fragment).toArray 0 #[]).getD #[]).toList
  else fragment

/-- The text of a step with its tildes and slashes put back. -/
def unescape : List Char → List Char
  | '~' :: '1' :: rest => '/' :: unescape rest
  | '~' :: '0' :: rest => '~' :: unescape rest
  | c :: rest => c :: unescape rest
  | [] => []

/-- The steps of a pointer: none at all for the empty text, and no pointer for a text that starts
with anything but a slash. -/
def steps? (pointer : String) : Option (List String) :=
  match pointer.toList with
  | [] => some []
  | '/' :: cs => some ((Text.pieces (· == '/') cs).map fun p => String.ofList (unescape p))
  | _ => none

/-- The index that a step writes: digits without a needless zero. -/
def index? (step : String) : Option Nat :=
  if Text.startsWith step "0" && step != "0" then none
  else (decimal? step).filter (· < 0x10000000000000000)

/-- The value one step below a value. -/
def child? (v : Json) (step : String) : Option Json :=
  match v with
  | .obj ms => ms.get? step
  | .arr items => (index? step).bind (items[·]?)
  | _ => none

def follow (v : Json) (steps : List String) : Option Json := steps.foldlM child? v

def find? (v : Json) (pointer : String) : Option Json := (steps? pointer).bind (follow v)

end ToolGateway.Pointer
