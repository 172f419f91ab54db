/-!
# UTF-8

`Utf8.encode` gives the bytes of a text. `Utf8.decode?` reads bytes back and refuses those that are
not UTF-8; `Utf8.decodeLossy` puts U+FFFD in place of every maximal piece that cannot be part of a
well-formed sequence.
-/

namespace ToolGateway.Utf8

def encodeChar (c : Char) : List UInt8 :=
  let n := c.toNat
  let tail (k : Nat) : UInt8 := UInt8.ofNat (0x80 + (n / Nat.pow 64 k) % 64)
  if n < 0x80 then [UInt8.ofNat n]
  else if n < 0x800 then [UInt8.ofNat (0xC0 + n / 64), tail 0]
  else if n < 0x10000 then [UInt8.ofNat (0xE0 + n / 4096), tail 1, tail 0]
  else [UInt8.ofNat (0xF0 + n / 262144), tail 2, tail 1, tail 0]

def encode (s : String) : List UInt8 := s.toList.flatMap encodeChar

/-- What a first byte asks for: how many bytes follow it, its own bits, and the range of the byte
after it; none for a byte that starts no sequence. -/
def lead? (b : Nat) : Option (Nat × Nat × Nat × Nat) :=
  if b < 0x80 then some (0, b, 0x80, 0xBF)
  else if 0xC2 ≤ b ∧ b ≤ 0xDF then some (1, b - 0xC0, 0x80, 0xBF)
  else if b = 0xE0 then some (2, 0, 0xA0, 0xBF)
  else if b = 0xED then some (2, 0xD, 0x80, 0x9F)
  else if 0xE1 ≤ b ∧ b ≤ 0xEF then some (2, b - 0xE0, 0x80, 0xBF)
  else if b = 0xF0 then some (3, 0, 0x90, 0xBF)
  else if 0xF1 ≤ b ∧ b ≤ 0xF3 then some (3, b - 0xF0, 0x80, 0xBF)
  else if b = 0xF4 then some (3, 4, 0x80, 0x8F)
  else none

/-- A sequence under way: how many bytes it still needs, its bits so far, and the range of the next
byte. -/
structure Pending where
  needed : Nat
  bits : Nat
  low : Nat
  high : Nat

/-- Reads bytes in one pass. `acc` holds the characters read so far in reverse; none stands for a
piece that is not UTF-8. -/
def scan (pending : Option Pending) (acc : List (Option Char)) :
    List UInt8 → List (Option Char)
  | [] => if pending.isSome then none :: acc else acc
  | b :: rest =>
    let n := b.toNat
    let begin (acc : List (Option Char)) : Option Pending × List (Option Char) :=
      match lead? n with
      | none => (none, none :: acc)
      | some (0, bits, _, _) => (none, some (Char.ofNat bits) :: acc)
      | some (k, bits, low, high) => (some ⟨k, bits, low, high⟩, acc)
    match pending with
    | none =>
      let (pending, acc) := begin acc
      scan pending acc rest
    | some p =>
      if p.low ≤ n ∧ n ≤ p.high then
        let bits := p.bits * 64 + (n - 0x80)
        if p.needed ≤ 1 then scan none (some (Char.ofNat bits) :: acc) rest
        else scan (some ⟨p.needed - 1, bits, 0x80, 0xBF⟩) acc rest
      else
        let (pending, acc) := begin (none :: acc)
        scan pending acc rest

/-- The characters of a list of bytes, none for each piece that is not UTF-8. -/
def pieces (bytes : List UInt8) : List (Option Char) := (scan none [] bytes).reverse

/-- The text with the given bytes, if they are UTF-8. -/
def decode? (bytes : List UInt8) : Option String := ((pieces bytes).mapM id).map String.ofList

/-- The text with the given bytes, with U+FFFD in place of each piece that is not UTF-8. -/
def decodeLossy (bytes : List UInt8) : String :=
  String.ofList ((pieces bytes).map (·.getD (Char.ofNat 0xFFFD)))

end ToolGateway.Utf8
