/-!
# Decimal numerals

Writing and reading whole numbers in base ten.
-/

namespace ToolGateway

def isDigit (c : Char) : Bool := '0' ≤ c && c ≤ '9'

def digitValue (c : Char) : Nat := c.toNat - 48

/-- The value of a run of ASCII digits, read after the digits of `start`. -/
def decimalValue (start : Nat) (cs : List Char) : Nat :=
  cs.foldl (fun n c => 10 * n + digitValue c) start

def decimal (n : Nat) : String := String.ofList (Nat.toDigits 10 n)

/-- The decimal digits of an integer, with a sign when it is negative. -/
def decimalInt (n : Int) : String :=
  if n < 0 then "-" ++ decimal n.natAbs else decimal n.natAbs

/-- Reads a text of ASCII digits only, with at least one, as a number. -/
def decimal? (s : String) : Option Nat :=
  let cs := s.toList
  if cs.isEmpty || !cs.all isDigit then none else some (decimalValue 0 cs)

end ToolGateway
