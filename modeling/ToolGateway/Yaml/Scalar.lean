import ToolGateway.Text.Decimal
import ToolGateway.Text.Hex
import ToolGateway.Yaml.Spot

/-!
# YAML scalars

A scalar is written plain, in quotes or as a block. A single line end inside a plain or quoted
scalar reads as a space; of several, all but the first are kept. A block keeps its lines, or folds
them by the same rule when it starts with `>`. The readers here return the text and the characters
after it.
-/

namespace ToolGateway.Yaml

/-- What lies between two words of a scalar: nothing, blanks on one line, or line ends, of which the
first is kept apart from the others. -/
inductive Gap where
  | nothing
  | blanks (cs : List Char)
  | lines (first others : List Char)
deriving Repr, Inhabited

namespace Gap

/-- Adds a blank. Those at the ends of lines do not count. -/
def addBlank (c : Char) : Gap → Gap
  | nothing => blanks [c]
  | blanks cs => blanks (cs ++ [c])
  | g => g

def addBreak (c : Char) : Gap → Gap
  | lines first others => lines first (others ++ [c])
  | _ => lines [c] []

def add (c : Char) (g : Gap) : Gap := if isBreak c then g.addBreak c else g.addBlank c

/-- What the gap reads as. -/
def text : Gap → List Char
  | nothing => []
  | blanks cs => cs
  | lines ['\n'] [] => [' ']
  | lines ['\n'] others => others
  | lines first others => first ++ others

def spansLines : Gap → Bool
  | lines .. => true
  | _ => false

end Gap

/-! ### Quoted scalars -/

/-- Where a reading stands with respect to an escape: outside, after a backslash, or in a code of
which some digits are still to come. -/
inductive Escape where
  | outside
  | started
  | code (left value : Nat)
deriving Repr, Inhabited

/-- What a letter after a backslash stands for. -/
def escaped? (c : Char) : Option Char :=
  match c with
  | '0' => some '\x00'
  | 'a' => some '\x07'
  | 'b' => some '\x08'
  | 't' | '\t' => some '\t'
  | 'n' => some '\n'
  | 'v' => some '\x0b'
  | 'f' => some '\x0c'
  | 'r' => some '\r'
  | 'e' => some '\x1b'
  | ' ' | '"' | '/' | '\\' => some c
  | 'N' => some (Char.ofNat 0x85)
  | '_' => some (Char.ofNat 0xA0)
  | 'L' => some (Char.ofNat 0x2028)
  | 'P' => some (Char.ofNat 0x2029)
  | _ => none

/-- The number of digits of the code that a letter after a backslash announces. -/
def codeLength? (c : Char) : Option Nat :=
  match c with
  | 'x' => some 2
  | 'u' => some 4
  | 'U' => some 8
  | _ => none

/-- The character with a code, none for the codes that are no characters. -/
def charOfCode? (n : Nat) : Option Char := if n.isValidChar then some (Char.ofNat n) else none

/-- Reads the rest of a scalar in double quotes; `text` holds what is read so far, in reverse. -/
def doubleQuoted (text : List Char) (gap : Gap) (escape : Escape) :
    List Spot → Option (List Char × List Spot)
  | [] => none
  | s :: rest =>
    match escape with
    | .code left value => do
      let digit ← hexValue? s.char
      let value := 16 * value + digit
      if left = 1 then
        let c ← charOfCode? value
        doubleQuoted (c :: text) .nothing .outside rest
      else doubleQuoted text .nothing (.code (left - 1) value) rest
    | .started =>
      -- An escaped line end reads as nothing, the empty lines after it still count.
      if isBreak s.char then doubleQuoted text (.lines [] []) .outside rest
      else
        match escaped? s.char, codeLength? s.char with
        | some c, _ => doubleQuoted (c :: text) .nothing .outside rest
        | none, some n => doubleQuoted text .nothing (.code n 0) rest
        | none, none => none
    | .outside =>
      if atMarker (s :: rest) then none
      else if isGap s.char then doubleQuoted text (gap.add s.char) .outside rest
      else
        let text := gap.text.reverse ++ text
        if s.char = '"' then some (text.reverse, rest)
        else if s.char = '\\' then doubleQuoted text .nothing .started rest
        else doubleQuoted (s.char :: text) .nothing .outside rest

/-- Reads the rest of a scalar in single quotes, where two quotes stand for one. -/
def singleQuoted (text : List Char) (gap : Gap) : List Spot → Option (List Char × List Spot)
  | [] => none
  | s :: rest =>
    if atMarker (s :: rest) then none
    else if isGap s.char then singleQuoted text (gap.add s.char) rest
    else
      let text := gap.text.reverse ++ text
      if s.char = '\'' then
        match rest with
        | t :: rest' =>
          if t.char = '\'' then singleQuoted ('\'' :: text) .nothing rest'
          else some (text.reverse, rest)
        | [] => some (text.reverse, [])
      else singleQuoted (s.char :: text) .nothing rest

/-! ### Plain scalars -/

/-- The characters that structure a flow collection. -/
def isFlowSign (c : Char) : Bool := ",[]\x7b\x7d".toList.contains c

/-- Whether a plain scalar ends here: before a colon that ends a key, and inside a flow collection
before a character that structures it. -/
def endsPlain (inFlow : Bool) (cs : List Spot) : Bool :=
  match cs with
  | [] => true
  | s :: _ => (s.char == ':' && gapAt cs 1) || (inFlow && isFlowSign s.char)

/-- Whether a colon stands here that a flow collection does not admit inside a plain scalar. -/
def hasStrayColon (inFlow : Bool) (cs : List Spot) : Bool :=
  inFlow && charAt cs 0 ':' && ((cs[1]?).any fun s => s.char == '?' || isFlowSign s.char)

/-- Whether what follows a gap does not belong to a plain scalar: it stands too far left, separates
documents or is a comment. -/
def endsAfterGap (inFlow : Bool) (indent : Int) (cs : List Spot) : Bool :=
  match cs with
  | [] => true
  | s :: _ => (!inFlow && (s.column : Int) < indent) || atMarker cs || s.char == '#'

/-- Reads a plain scalar whose lines start at a column of at least `indent`. The gap after it is
returned too. -/
def plainScalar (inFlow : Bool) (indent : Int) (text : List Char) (gap : Gap) :
    List Spot → Option (List Char × Gap × List Spot)
  | [] => some (text.reverse, gap, [])
  | s :: rest =>
    if isGap s.char then
      if gap.spansLines && (s.column : Int) < indent && s.char == '\t' then none
      else plainScalar inFlow indent text (gap.add s.char) rest
    else
      let fresh := match gap with
        | .nothing => false
        | _ => endsAfterGap inFlow indent (s :: rest)
      if fresh then some (text.reverse, gap, s :: rest)
      else if hasStrayColon inFlow (s :: rest) then none
      else if endsPlain inFlow (s :: rest) then some (text.reverse, gap, s :: rest)
      else plainScalar inFlow indent (s.char :: (gap.text.reverse ++ text)) .nothing rest

/-! ### Block scalars -/

/-- What happens to the line ends at the end of a block: one is kept, none, or all. -/
inductive Chomping where
  | clip
  | strip
  | keep
deriving Repr, Inhabited, DecidableEq

/-- The chomping that a sign asks for. -/
def chomping? (cs : List Spot) : Chomping × List Spot :=
  match cs with
  | s :: rest =>
    if s.char = '+' then (.keep, rest) else if s.char = '-' then (.strip, rest) else (.clip, cs)
  | [] => (.clip, [])

/-- The indentation that a digit asks for; zero is refused. -/
def increment? (cs : List Spot) : Option (Option Nat × List Spot) :=
  match cs with
  | s :: rest =>
    if s.char = '0' then none
    else if isDigit s.char then some (some (digitValue s.char), rest) else some (none, cs)
  | [] => some (none, [])

/-- The two signs of a block's header, in either order. -/
def blockSigns? (cs : List Spot) : Option (Chomping × Option Nat × List Spot) := do
  match chomping? cs with
  | (.clip, cs) =>
    let (increment, cs) ← increment? cs
    let (chomping, cs) := if increment.isSome then chomping? cs else (.clip, cs)
    return (chomping, increment, cs)
  | (chomping, cs) =>
    let (increment, cs) ← increment? cs
    return (chomping, increment, cs)

/-- Skips what remains of a line: blanks and a comment. Anything else is refused. -/
def restOfLine? (cs : List Spot) : Option (List Spot) :=
  let cs := cs.dropWhile (isBlank ·.char)
  let cs := if charAt cs 0 '#' then cs.dropWhile (!isBreak ·.char) else cs
  match cs with
  | [] => some []
  | s :: rest => if isBreak s.char then some rest else none

/-- Reads the indentation before a line of a block and the empty lines before it. Without a known
indentation every space belongs to it. Returns the line ends and the greatest column; a tab in the
indentation is refused. -/
def blockMargin (indent : Option Nat) (breaks : List Char) (widest : Nat) :
    List Spot → Option (List Char × Nat × List Spot)
  | [] => some (breaks, widest, [])
  | s :: rest =>
    let inside := indent.all (s.column < ·)
    if inside && s.char == ' ' then blockMargin indent breaks widest rest
    else if inside && s.char == '\t' then none
    else if isBreak s.char then
      blockMargin indent (breaks ++ [s.char]) (max widest s.column) rest
    else some (breaks, max widest s.column, s :: rest)

/-- A block under way: its text, the end of the last line, the empty lines after it, and whether
that line started with a blank. -/
structure Block where
  text : List Char
  ending : List Char
  empty : List Char
  blank : Bool
deriving Repr, Inhabited

/-- What stands between the text of a block and its next line. Folding makes a line end between two
lines that do not start with a blank a space, or nothing when empty lines follow. -/
def Block.joint (b : Block) (literal blank : Bool) : List Char :=
  (if !literal && b.ending == ['\n'] && !b.blank && !blank then
      if b.empty.isEmpty then [' '] else []
    else b.ending) ++ b.empty

/-- Reads the lines of a block that start at the column `indent`; a line takes at least one
character, so the length of the text is fuel enough. -/
def blockLines (literal : Bool) (indent : Nat) :
    Nat → Block → List Spot → Option (Block × List Spot)
  | 0, b, cs => some (b, cs)
  | fuel + 1, b, cs =>
    match cs with
    | [] => some (b, [])
    | s :: _ =>
      if s.column ≠ indent then some (b, cs)
      else do
        let blank := isBlank s.char
        let text := b.text ++ b.joint literal blank ++ chars (cs.takeWhile (!isBreak ·.char))
        let after := cs.dropWhile (!isBreak ·.char)
        let (empty, _, rest) ← blockMargin (some indent) [] 0 (after.drop 1)
        blockLines literal indent fuel ⟨text, chars (after.take 1), empty, blank⟩ rest

/-- The text of a finished block. -/
def Block.result (b : Block) : Chomping → List Char
  | .strip => b.text
  | .clip => b.text ++ b.ending
  | .keep => b.text ++ b.ending ++ b.empty

/-- Reads a block after its first sign, inside a collection that is indented to `outer`. -/
def blockScalar (literal : Bool) (outer : Int) (cs : List Spot) :
    Option (List Char × List Spot) := do
  let (chomping, increment, cs) ← blockSigns? cs
  let cs ← restOfLine? cs
  let asked := increment.map ((max outer 0).toNat + ·)
  let (empty, widest, cs) ← blockMargin asked [] 0 cs
  let indent := asked.getD (max widest (max (outer + 1) 1).toNat)
  let (b, rest) ← blockLines literal indent cs.length ⟨[], [], empty, false⟩ cs
  return (b.result chomping, rest)

end ToolGateway.Yaml
