import ToolGateway.Text.Hex
import ToolGateway.Text.Utf8

/-!
# Digests

The SHA-256 digest of a text. A message is padded to blocks of sixteen words; each block is spread
to sixty-four words, which are mixed into a state of eight.
-/

namespace ToolGateway.Digest

/-- The first 32 bits of the fractional parts of the square roots of the first eight primes. -/
def initial : List UInt32 :=
  [0x6a09e667, 0xbb67ae85, 0x3c6ef372, 0xa54ff53a, 0x510e527f, 0x9b05688c, 0x1f83d9ab, 0x5be0cd19]

/-- The first 32 bits of the fractional parts of the cube roots of the first sixty-four primes. -/
def constants : List UInt32 :=
  [0x428a2f98, 0x71374491, 0xb5c0fbcf, 0xe9b5dba5, 0x3956c25b, 0x59f111f1, 0x923f82a4, 0xab1c5ed5,
    0xd807aa98, 0x12835b01, 0x243185be, 0x550c7dc3, 0x72be5d74, 0x80deb1fe, 0x9bdc06a7, 0xc19bf174,
    0xe49b69c1, 0xefbe4786, 0x0fc19dc6, 0x240ca1cc, 0x2de92c6f, 0x4a7484aa, 0x5cb0a9dc, 0x76f988da,
    0x983e5152, 0xa831c66d, 0xb00327c8, 0xbf597fc7, 0xc6e00bf3, 0xd5a79147, 0x06ca6351, 0x14292967,
    0x27b70a85, 0x2e1b2138, 0x4d2c6dfc, 0x53380d13, 0x650a7354, 0x766a0abb, 0x81c2c92e, 0x92722c85,
    0xa2bfe8a1, 0xa81a664b, 0xc24b8b70, 0xc76c51a3, 0xd192e819, 0xd6990624, 0xf40e3585, 0x106aa070,
    0x19a4c116, 0x1e376c08, 0x2748774c, 0x34b0bcb5, 0x391c0cb3, 0x4ed8aa4a, 0x5b9cca4f, 0x682e6ff3,
    0x748f82ee, 0x78a5636f, 0x84c87814, 0x8cc70208, 0x90befffa, 0xa4506ceb, 0xbef9a3f7, 0xc67178f2]

/-- Rotates a word to the right. -/
def rotate (x : UInt32) (n : UInt32) : UInt32 := (x >>> n) ||| (x <<< (32 - n))

/-- The bytes of a number, `n` of them, the highest first. -/
def bigEndian (n value : Nat) : List UInt8 :=
  (List.range n).reverse.map fun i => UInt8.ofNat (value / Nat.pow 256 i)

/-- Pads a message with a one bit, zeros and its length in bits. -/
def pad (message : List UInt8) : List UInt8 :=
  let zeros := (119 - message.length % 64) % 64
  message ++ 0x80 :: List.replicate zeros 0 ++ bigEndian 8 (8 * message.length)

def words : List UInt8 → List UInt32
  | a :: b :: c :: d :: rest =>
    ((a.toUInt32 <<< 24) ||| (b.toUInt32 <<< 16) ||| (c.toUInt32 <<< 8) ||| d.toUInt32) ::
      words rest
  | _ => []

/-- The blocks of sixteen words; `n` is at least their number. -/
def blocks : Nat → List UInt32 → List (List UInt32)
  | 0, _ => []
  | n + 1, ws => if ws.isEmpty then [] else ws.take 16 :: blocks n (ws.drop 16)

/-- Adds a word to a schedule whose latest word comes first. -/
def extend (ws : List UInt32) : List UInt32 :=
  let a := ws.getD 14 0
  let b := ws.getD 1 0
  let s0 := rotate a 7 ^^^ rotate a 18 ^^^ (a >>> 3)
  let s1 := rotate b 17 ^^^ rotate b 19 ^^^ (b >>> 10)
  (ws.getD 15 0 + s0 + ws.getD 6 0 + s1) :: ws

/-- The sixty-four words of a block. -/
def schedule (block : List UInt32) : List UInt32 :=
  ((List.range 48).foldl (fun ws _ => extend ws) block.reverse).reverse

/-- Mixes a word and its constant into a state. -/
def mix (state : List UInt32) (wk : UInt32 × UInt32) : List UInt32 :=
  match state with
  | [a, b, c, d, e, f, g, h] =>
    let s1 := rotate e 6 ^^^ rotate e 11 ^^^ rotate e 25
    let choice := (e &&& f) ^^^ (~~~e &&& g)
    let t1 := h + s1 + choice + wk.2 + wk.1
    let s0 := rotate a 2 ^^^ rotate a 13 ^^^ rotate a 22
    let majority := (a &&& b) ^^^ (a &&& c) ^^^ (b &&& c)
    [t1 + (s0 + majority), a, b, c, d + t1, e, f, g]
  | state => state

def compress (state block : List UInt32) : List UInt32 :=
  List.zipWith (· + ·) state (((schedule block).zip constants).foldl mix state)

def sha256 (message : List UInt8) : List UInt8 :=
  let ws := words (pad message)
  ((blocks ws.length ws).foldl compress initial).flatMap fun w => bigEndian 4 w.toNat

/-- The name of a text's digest, as a configuration writes it. -/
def name (text : String) : String :=
  "sha256:" ++ String.ofList ((sha256 (Utf8.encode text)).flatMap hexByte)

end ToolGateway.Digest
