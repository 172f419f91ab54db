/-!
# Finite binary64 numbers

A finite double is a whole number of units of 2⁻¹⁰⁷⁴, so it is kept as that number and a sign.
Reading, multiplying and dividing round the exact result to the nearest representable number, ties
going to the even significand; `Binary64.shortest` goes the other way and gives the fewest decimal
digits that read back to the same number.
-/

namespace ToolGateway

/-- A finite double: its sign and its magnitude in units of 2⁻¹⁰⁷⁴. Zero has two signs. -/
structure Binary64 where
  negative : Bool
  units : Nat
deriving DecidableEq, Repr, Inhabited

namespace Binary64

/-- One, in units. -/
def one : Nat := Nat.pow 2 1074

/-- The first magnitude that is too large, in units: 2¹⁰²⁴. -/
def overflow : Nat := Nat.pow 2 2098

/-- `num / den` rounded to a whole number, a half going to the even neighbour. -/
def roundHalfEven (num den : Nat) : Nat :=
  let q := num / den
  let twice := 2 * (num % den)
  if twice < den then q
  else if twice > den then q + 1
  else if q % 2 = 0 then q else q + 1

/-- How many low bits of a magnitude near `u` units a significand of 53 bits cannot hold. -/
def spacing (u : Nat) : Nat := u.log2 - 52

/-- The representable magnitude nearest to `num / den` units. -/
def nearestUnits (num den : Nat) : Nat :=
  let k := spacing (num / den)
  roundHalfEven num (den <<< k) <<< k

/-- The finite number nearest to `num / den` units, none when it is too large. -/
def ofUnits? (negative : Bool) (num den : Nat) : Option Binary64 :=
  let u := nearestUnits num den
  if u < overflow then some ⟨negative, u⟩ else none

def ofNat? (negative : Bool) (n : Nat) : Option Binary64 := ofUnits? negative (n * one) 1

/-- The rounded product, none when it is too large; the sign is the first factor's. -/
def scaleUp? (x : Binary64) (factor : Nat) : Option Binary64 :=
  ofUnits? x.negative (x.units * factor) one

/-- The rounded quotient by a magnitude of at least one. -/
def scaleDown (x : Binary64) (divisor : Nat) : Binary64 :=
  ⟨x.negative, nearestUnits (x.units * one) divisor⟩

/-- The magnitude nearest to 10 to the power `k`, in units. -/
def powerOfTen (k : Nat) : Nat := nearestUnits (Nat.pow 10 k * one) 1

/-- Numeric equality: the two zeros are equal. -/
def equals (x y : Binary64) : Bool :=
  x.units == y.units && (x.negative == y.negative || x.units == 0)

/-! ### The shortest decimal that reads back -/

/-- Whether `num / den` is at most `b` quarter units. -/
def atMost (num den b : Nat) : Bool := num * (4 * one) ≤ b * den

/-- Whether the decimal `num / den` rounds to the magnitude `u`: it lies between the midpoints to
the neighbours of `u`, which belong to `u` exactly when its significand is even. -/
def readsBackAs (u num den : Nat) : Bool :=
  let k := spacing u
  let step := Nat.pow 2 k
  -- Below a power of two the neighbour is only half as far away.
  let low := 4 * u - (if u = Nat.pow 2 (52 + k) ∧ 0 < k then step else 2 * step)
  let high := 4 * u + 2 * step
  let value := num * (4 * one)
  if (u >>> k) % 2 = 0 then low * den ≤ value && value ≤ high * den
  else low * den < value && value < high * den

def decimalLength (n : Nat) : Nat := (Nat.toDigits 10 n).length

/-- The exponent `e` with 10ᵉ⁻¹ ≤ `u` units < 10ᵉ, for `u` not zero. -/
def magnitudeTen (u : Nat) : Int :=
  if one ≤ u then decimalLength (u / one)
  else 1 - (decimalLength ((one + u - 1) / u - 1) : Int)

/-- The decimal `d · 10ᵉ` as a quotient of natural numbers. -/
def decimalRatio (d : Nat) (e : Int) : Nat × Nat :=
  if 0 ≤ e then (d * Nat.pow 10 e.toNat, 1) else (d, Nat.pow 10 (-e).toNat)

/-- The decimal with `n` digits nearest to `u`, if one of the two around `u` reads back as `u`. -/
def decimalWith? (u n : Nat) : Option (Nat × Int) :=
  let e := magnitudeTen u - n
  let (num, den) := if 0 ≤ e then (u, one * Nat.pow 10 e.toNat) else (u * Nat.pow 10 (-e).toNat, one)
  let d := num / den
  let rest := num % den
  let fits (c : Nat) : Bool := let (p, q) := decimalRatio c e; readsBackAs u p q
  match fits d, fits (d + 1) with
  | true, true =>
    if 2 * rest < den || (2 * rest = den && d % 2 = 0) then some (d, e) else some (d + 1, e)
  | true, false => some (d, e)
  | false, true => some (d + 1, e)
  | false, false => none

/-- Moves trailing zeros of the digits into the exponent. -/
def dropZeros : Nat → Nat → Int → Nat × Int
  | 0, d, e => (d, e)
  | fuel + 1, d, e => if d % 10 = 0 ∧ d ≠ 0 then dropZeros fuel (d / 10) (e + 1) else (d, e)

/-- The shortest decimal `(d, e)`, meaning `d · 10ᵉ`, that reads back as `u` units. Seventeen digits
always suffice. -/
def shortest (u : Nat) : Nat × Int :=
  match (List.range 17).findSome? (fun n => decimalWith? u (n + 1)) with
  | some (d, e) => dropZeros 18 d e
  | none => (0, 0)

end Binary64

end ToolGateway
