import ToolGateway.Text.Utf8

/-!
# Percent-encoding

`Percent.encode` writes every byte of a text that a predicate does not keep as `%` and two uppercase
hexadecimal digits. `Percent.decodeBytes` replaces each `%` with two hexadecimal digits by the byte
they denote and leaves all else alone.
-/

namespace ToolGateway.Percent

def hexUpper (n : Nat) : Char := if n < 10 then Char.ofNat (48 + n) else Char.ofNat (55 + n)

def escape (b : UInt8) : List Char := ['%', hexUpper (b.toNat / 16), hexUpper (b.toNat % 16)]

/-- Encodes the bytes that are not kept. -/
def encodeBytes (keep : UInt8 → Bool) (bytes : List UInt8) : List Char :=
  bytes.flatMap fun b => if keep b then [Char.ofNat b.toNat] else escape b

/-- Encodes the bytes of a text that are not kept. Only ASCII bytes may be kept. -/
def encode (keep : UInt8 → Bool) (s : String) : String :=
  String.ofList (encodeBytes keep (Utf8.encode s))

/-- The value of a byte that is a hexadecimal digit. -/
def hexByte? (b : UInt8) : Option Nat :=
  let n := b.toNat
  if 48 ≤ n ∧ n ≤ 57 then some (n - 48)
  else if 97 ≤ n ∧ n ≤ 102 then some (n - 87)
  else if 65 ≤ n ∧ n ≤ 70 then some (n - 55)
  else none

/-- The byte that two hexadecimal digits denote. -/
def hexPair? (a b : UInt8) : Option UInt8 := do
  let a ← hexByte? a
  let b ← hexByte? b
  some (UInt8.ofNat (16 * a + b))

/-- Replaces each percent sign that is followed by two bytes with a meaning, from left to right. -/
def decodeBytesBy (pair? : UInt8 → UInt8 → Option UInt8) : List UInt8 → List UInt8
  | [] => []
  | [a] => [a]
  | [a, b] => [a, b]
  | a :: b :: c :: rest =>
    if a = 37 then
      match pair? b c with
      | some v => v :: decodeBytesBy pair? rest
      | none => a :: decodeBytesBy pair? (b :: c :: rest)
    else a :: decodeBytesBy pair? (b :: c :: rest)

/-- Replaces each escape by its byte. -/
def decodeBytes (bytes : List UInt8) : List UInt8 := decodeBytesBy hexPair? bytes

/-- Decodes a text; bytes that are not UTF-8 in the end become U+FFFD. -/
def decode (s : String) : String := Utf8.decodeLossy (decodeBytes (Utf8.encode s))

end ToolGateway.Percent
