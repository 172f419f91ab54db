import ToolGateway.Text.Basic
import ToolGateway.Text.Decimal
import ToolGateway.Text.Percent
import ToolGateway.Url.Domain

/-!
# Hosts

The host of a URL is a domain name, an IPv4 address or an IPv6 address. A domain whose last label is
a number must be an IPv4 address, which may be written in several ways; all of them are printed the
same way. An IPv6 address stands in brackets and is printed with its longest run of zero groups left
out.
-/

namespace ToolGateway.Url

/-- Why a text is not a URL. -/
inductive Fault where
  | emptyHost
  | badDomain
  | badPort
  | badIpv4
  | badIpv6
  | badHostCharacter
  | noBase
  | opaqueBase
deriving DecidableEq, Repr, Inhabited

def Fault.message : Fault → String
  | .emptyHost => "empty host"
  | .badDomain => "invalid international domain name"
  | .badPort => "invalid port number"
  | .badIpv4 => "invalid IPv4 address"
  | .badIpv6 => "invalid IPv6 address"
  | .badHostCharacter => "invalid domain character"
  | .noBase => "relative URL without a base"
  | .opaqueBase => "relative URL with a cannot-be-a-base base"

/-- The host of a URL; the empty domain stands for an authority without a host. -/
inductive Host where
  | domain (name : String)
  | ipv4 (address : Nat)
  | ipv6 (groups : List Nat)
deriving DecidableEq, Repr, Inhabited

namespace Host

/-! ### IPv4 -/

/-- Reads a number in a base up to sixteen. -/
def number? (base : Nat) (cs : List Char) : Option Nat :=
  cs.foldlM (fun n c => do
    let d ← Percent.hexByte? (UInt8.ofNat c.toNat)
    if d < base ∧ c.toNat < 128 then some (base * n + d) else none) 0

/-- Reads a part of an IPv4 address: hexadecimal after `0x`, octal after `0`, decimal otherwise. -/
def ipv4Part? : List Char → Option Nat
  | [] => none
  | '0' :: 'x' :: rest | '0' :: 'X' :: rest => number? 16 rest
  | '0' :: c :: rest => number? 8 (c :: rest)
  | cs => number? 10 cs

/-- The parts of a dotted name, without an empty last one. -/
def dottedParts (name : List Char) : List (List Char) :=
  let parts := Text.pieces (· == '.') name
  if parts.length > 1 && parts.getLast? == some [] then parts.dropLast else parts

/-- Whether the last label of a name is a number, so that the name must be an IPv4 address. -/
def endsInNumber (name : List Char) : Bool :=
  match (dottedParts name).getLast? with
  | none | some [] => false
  | some last => last.all isDigit || (ipv4Part? last).isSome

/-- Reads an IPv4 address: up to four parts, of which the last takes all remaining bytes. -/
def ipv4? (name : List Char) : Option Nat := do
  let parts ← (dottedParts name).mapM ipv4Part?
  if parts.length > 4 then none
  else
    let last ← parts.getLast?
    let leading := parts.dropLast
    if leading.any (· > 255) || last ≥ Nat.pow 256 (4 - leading.length) then none
    else
      some (leading.zipIdx.foldl (fun sum (n, i) => sum + n * Nat.pow 256 (3 - i)) last)

/-- The dotted form of an IPv4 address. -/
def renderIpv4 (a : Nat) : String :=
  ".".intercalate ([3, 2, 1, 0].map fun k => decimal (a / Nat.pow 256 k % 256))

/-! ### IPv6 -/

/-- Reads a group: one to four hexadecimal digits. -/
def group? (cs : List Char) : Option Nat :=
  if cs.isEmpty || cs.length > 4 then none else number? 16 cs

/-- Reads a part of the dotted tail of an IPv6 address: decimal, below 256, without leading zeros.
-/
def tailPart? (cs : List Char) : Option Nat :=
  match cs with
  | [] => none
  | '0' :: _ :: _ => none
  | cs => (number? 10 cs).bind fun n => if n < 256 then some n else none

/-- Reads the dotted tail of an IPv6 address as two groups. -/
def tail? (cs : List Char) : Option (List Nat) :=
  match (Text.pieces (· == '.') cs).mapM tailPart? with
  | some [a, b, c, d] => some [a * 256 + b, c * 256 + d]
  | _ => none

/-- Reads groups between colons; the last may be a dotted tail. -/
def groups? (mayEndDotted : Bool) : List (List Char) → Option (List Nat)
  | [] => some []
  | [last] =>
    match group? last with
    | some n => some [n]
    | none => if mayEndDotted then tail? last else none
  | g :: rest => do
    let n ← group? g
    let ns ← groups? mayEndDotted rest
    some (n :: ns)

/-- The groups of a part of an address; an empty part has none. -/
def part? (mayEndDotted : Bool) (cs : List Char) : Option (List Nat) :=
  if cs.isEmpty then some [] else groups? mayEndDotted (Text.pieces (· == ':') cs)

/-- Splits at the first double colon. -/
def splitGap : List Char → Option (List Char × List Char)
  | ':' :: ':' :: rest => some ([], rest)
  | c :: rest => (splitGap rest).map fun (a, b) => (c :: a, b)
  | [] => none

/-- Reads an IPv6 address: eight groups, or fewer with one gap. -/
def ipv6? (cs : List Char) : Option (List Nat) :=
  match splitGap cs with
  | none => (part? true cs).bind fun gs => if gs.length = 8 then some gs else none
  | some (before, after) => do
    let before ← part? false before
    let after ← part? true after
    let n := before.length + after.length
    if n ≤ 7 then some (before ++ List.replicate (8 - n) 0 ++ after) else none

/-- The length of the run of zeros at the start. -/
def zeroRun (gs : List Nat) : Nat := (gs.takeWhile (· == 0)).length

/-- Where the first longest run of at least two zero groups starts, and how long it is. -/
def gap? (gs : List Nat) : Option (Nat × Nat) :=
  let runs := (List.range gs.length).map fun i => (i, zeroRun (gs.drop i))
  let best := runs.foldl (fun best run => if run.2 > best.2 then run else best) (0, 1)
  if best.2 > 1 then some best else none

def hexadecimal (n : Nat) : String := String.ofList (Nat.toDigits 16 n)

/-- The bracketed form of an IPv6 address. -/
def renderIpv6 (gs : List Nat) : String :=
  let colons (gs : List Nat) : String := ":".intercalate (gs.map hexadecimal)
  match gap? gs with
  | none => "[" ++ colons gs ++ "]"
  | some (i, n) => "[" ++ colons (gs.take i) ++ "::" ++ colons (gs.drop (i + n)) ++ "]"

/-! ### Reading and printing hosts -/

/-- Reads the address between brackets. -/
def bracketed? (cs : List Char) : Except Fault Host :=
  match cs.reverse with
  | ']' :: inner =>
    match ipv6? inner.reverse with
    | some gs => .ok (.ipv6 gs)
    | none => .error .badIpv6
  | _ => .error .badIpv6

/-- Reads the host of a URL whose scheme has a meaning for the web. -/
def ofText? (cs : List Char) : Except Fault Host :=
  match cs with
  | '[' :: rest => bracketed? rest
  | cs =>
    match Domain.toAscii? (Percent.decodeBytes (Utf8.encode (String.ofList cs))) with
    | none => .error .badDomain
    | some name =>
      if name.isEmpty then .error .emptyHost
      else if endsInNumber name then
        match ipv4? name with
        | some a => .ok (.ipv4 a)
        | none => .error .badIpv4
      else .ok (.domain (String.ofList name))

/-- The bytes that every part of a URL keeps: the printable ones of ASCII. -/
def isPrintable (b : UInt8) : Bool := 32 ≤ b.toNat && b.toNat < 127

/-- Reads the host of any other URL. -/
def ofOpaque? (cs : List Char) : Except Fault Host :=
  match cs with
  | '[' :: rest => bracketed? rest
  | cs =>
    if cs.any fun c => "\x00\t\n\r #/:<>?@[\\]^|".toList.contains c then .error .badHostCharacter
    else .ok (.domain (Percent.encode isPrintable (String.ofList cs)))

def render : Host → String
  | .domain name => name
  | .ipv4 a => renderIpv4 a
  | .ipv6 gs => renderIpv6 gs

end Host

end ToolGateway.Url
