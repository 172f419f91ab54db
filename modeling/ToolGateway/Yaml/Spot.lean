/-!
# The characters of a YAML text

Indentation carries meaning in YAML, so every character is kept with the place where it stands. Line
ends have one spelling here, however the text writes them; only the two Unicode separators stay as
they are, because a scalar that spans lines keeps them.
-/

namespace ToolGateway.Yaml

/-- A character, its number in the text, its line and its column, all from zero. -/
structure Spot where
  char : Char
  index : Nat
  line : Nat
  column : Nat
deriving Repr, Inhabited

def isBreak (c : Char) : Bool := c = '\n' || c.toNat = 0x2028 || c.toNat = 0x2029

/-- Whether a character is a space or a tab. -/
def isBlank (c : Char) : Bool := c = ' ' || c = '\t'

/-- Whether a character separates words. -/
def isGap (c : Char) : Bool := isBlank c || isBreak c

/-- Whether a character may stand in an anchor, a handle or a directive's name. -/
def isWord (c : Char) : Bool := c.isAlphanum || c = '_' || c = '-'

/-- Whether a character may stand in a text at all: control characters may not. -/
def isAllowed (c : Char) : Bool :=
  let n := c.toNat
  n = 9 || n = 10 || n = 13 || (0x20 ≤ n && n ≤ 0x7E) || n = 0x85 || (0xA0 ≤ n && n ≤ 0xFFFD) ||
    0x10000 ≤ n

/-- Writes every line end as a line feed. -/
def plainBreaks : List Char → List Char
  | [] => []
  | '\r' :: '\n' :: rest => '\n' :: plainBreaks rest
  | c :: rest => (if c = '\r' ∨ c.toNat = 0x85 then '\n' else c) :: plainBreaks rest

/-- Notes where each character stands. -/
def locate (index line column : Nat) : List Char → List Spot
  | [] => []
  | c :: rest =>
    ⟨c, index, line, column⟩ ::
      (if isBreak c then locate (index + 1) (line + 1) 0 rest
      else locate (index + 1) line (column + 1) rest)

def isByteOrderMark (c : Char) : Bool := c.toNat = 0xFEFF

/-- A text without the byte order mark before it. -/
def dropByteOrderMark : List Char → List Char
  | [] => []
  | c :: rest => if isByteOrderMark c then rest else c :: rest

/-- The characters of a text with their places, none when one is not allowed. A byte order mark
before the text has no place. -/
def spots? (text : String) : Option (List Spot) :=
  if text.toList.all isAllowed then
    some (locate 0 0 0 (plainBreaks (dropByteOrderMark text.toList)))
  else none

def chars (cs : List Spot) : List Char := cs.map (·.char)

/-- Whether the text ends or a gap follows after `n` characters. -/
def gapAt (cs : List Spot) (n : Nat) : Bool :=
  match cs[n]? with
  | none => true
  | some s => isGap s.char

/-- Whether a certain character follows after `n` others. -/
def charAt (cs : List Spot) (n : Nat) (c : Char) : Bool :=
  match cs[n]? with
  | none => false
  | some s => s.char == c

/-- Whether the three signs that separate documents stand here, at the start of a line. -/
def isMarker (sign : Char) (cs : List Spot) : Bool :=
  match cs with
  | s :: _ =>
    s.column == 0 && charAt cs 0 sign && charAt cs 1 sign && charAt cs 2 sign && gapAt cs 3
  | [] => false

/-- Whether a document starts or ends here. -/
def atMarker (cs : List Spot) : Bool := isMarker '-' cs || isMarker '.' cs

end ToolGateway.Yaml
