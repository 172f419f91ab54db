import ToolGateway.Text.Basic
import ToolGateway.Text.Utf8
import ToolGateway.Yaml.Scalar

/-!
# YAML tokens

The tokens of a text, with the starts and ends of indented collections made explicit. A key needs no
sign before it, so the place where one may have started is remembered until a colon confirms it:
only then is the sign put in. Such a key stays on one line and within 1024 characters.
-/

namespace ToolGateway.Yaml

inductive Token where
  | version (major minor : Nat)
  | handle (name start : String)
  | documentStart
  | documentEnd
  | listStart
  | mapStart
  | blockEnd
  | flowListStart
  | flowListEnd
  | flowMapStart
  | flowMapEnd
  | item
  | comma
  | key
  | value
  | alias (name : String)
  | anchor (name : String)
  | tag (handle rest : String)
  | scalar (text : String) (plain : Bool)
deriving DecidableEq, Repr, Inhabited

namespace Token

/-! ### Directives, anchors and tags -/

/-- The word at the start, which must not be empty. -/
def word? (cs : List Spot) : Option (String × List Spot) :=
  match cs.takeWhile (isWord ·.char) with
  | [] => none
  | w => some (String.ofList (chars w), cs.dropWhile (isWord ·.char))

/-- A number of at most nine digits. -/
def number? (cs : List Spot) : Option (Nat × List Spot) :=
  let ds := cs.takeWhile (isDigit ·.char)
  if ds.isEmpty || ds.length > 9 then none
  else some (decimalValue 0 (chars ds), cs.dropWhile (isDigit ·.char))

/-- The handle of a tag: an exclamation mark, a word, and perhaps another mark. -/
def handle? (cs : List Spot) : Option (String × List Spot) :=
  match cs with
  | s :: rest =>
    if s.char ≠ '!' then none
    else
      let w := chars (rest.takeWhile (isWord ·.char))
      let rest := rest.dropWhile (isWord ·.char)
      if charAt rest 0 '!' then some (String.ofList ('!' :: w ++ ['!']), rest.drop 1)
      else some (String.ofList ('!' :: w), rest)
  | [] => none

/-- The characters of a tag; a tag in angle brackets and a handle's start may have more. -/
def isTagChar (wide : Bool) (c : Char) : Bool :=
  isWord c || ";/?:@&=+$.!~*'()".toList.contains c || (wide && ",[]".toList.contains c)

/-- The bytes of a tag, with those written in hexadecimal decoded. -/
def tagBytes (wide : Bool) (out : List UInt8) : List Spot → Option (List UInt8 × List Spot)
  | [] => some (out, [])
  | s :: rest =>
    if s.char = '%' then
      match rest with
      | a :: b :: rest' => do
        let high ← hexValue? a.char
        let low ← hexValue? b.char
        tagBytes wide (out ++ [UInt8.ofNat (16 * high + low)]) rest'
      | _ => none
    else if isTagChar wide s.char then tagBytes wide (out ++ Utf8.encodeChar s.char) rest
    else some (out, s :: rest)

def tagText? (wide : Bool) (cs : List Spot) : Option (String × List Spot) := do
  let (bytes, rest) ← tagBytes wide [] cs
  let text ← Utf8.decode? bytes
  return (text, rest)

/-- A text of a tag that must not be empty. -/
def fullTagText? (wide : Bool) (cs : List Spot) : Option (String × List Spot) := do
  let (text, rest) ← tagText? wide cs
  if text.isEmpty then none else return (text, rest)

/-- A version directive after its name. -/
def version? (cs : List Spot) : Option (Token × List Spot) := do
  let (major, cs) ← number? (cs.dropWhile (isBlank ·.char))
  if !charAt cs 0 '.' then none
  let (minor, cs) ← number? (cs.drop 1)
  return (.version major minor, cs)

/-- A tag directive after its name: a handle and what it stands for. -/
def tagDirective? (cs : List Spot) : Option (Token × List Spot) := do
  let (name, cs) ← handle? (cs.dropWhile (isBlank ·.char))
  if name ≠ "!" ∧ !Text.endsWith name "!" then none
  if !(cs.head?.any (isBlank ·.char)) then none
  let (start, cs) ← fullTagText? true (cs.dropWhile (isBlank ·.char))
  if !gapAt cs 0 then none
  return (.handle name start, cs)

/-- A directive after its percent sign, up to the end of its line. -/
def directive? (cs : List Spot) : Option (Token × List Spot) := do
  let (name, cs) ← word? cs
  if !gapAt cs 0 then none
  let (t, cs) ← match name with
    | "YAML" => version? cs
    | "TAG" => tagDirective? cs
    | _ => none
  let cs ← restOfLine? cs
  return (t, cs)

/-- The name of an anchor or an alias, which must be followed by a gap or by a sign. -/
def name? (cs : List Spot) : Option (String × List Spot) := do
  let (name, cs) ← word? cs
  if gapAt cs 0 || (cs.head?.any fun s => "?:,]\x7d%@\x60".toList.contains s.char) then
    return (name, cs)
  else none

/-- A tag in any of its three forms, before what must follow it is checked. -/
def tagForm? (cs : List Spot) : Option (Token × List Spot) := do
  if charAt cs 1 '<' then
    let (text, cs) ← fullTagText? true (cs.drop 2)
    if charAt cs 0 '>' then return (.tag "" text, cs.drop 1) else none
  else
    let (name, rest) ← handle? cs
    if name.length > 1 && Text.endsWith name "!" then
      let (text, rest) ← fullTagText? false rest
      return (.tag name text, rest)
    else
      let (text, rest) ← tagText? false (cs.drop 1)
      return (if text.isEmpty then .tag "" "!" else .tag "!" text, rest)

/-- A tag, which must be followed by a gap, or by a comma inside a flow collection. -/
def tag? (inFlow : Bool) (cs : List Spot) : Option (Token × List Spot) := do
  let (t, cs) ← tagForm? cs
  if gapAt cs 0 || (inFlow && charAt cs 0 ',') then return (t, cs) else none

/-! ### Scanning -/

/-- A place where a key may have started: how many tokens come before it and where it stands. A key
is required when it stands where only a key can. -/
structure KeyPlace where
  required : Bool
  before : Nat
  spot : Spot
deriving Repr, Inhabited

/-- Whether a key that started there can no longer be confirmed at a later spot. -/
def KeyPlace.isStale (k : KeyPlace) (now : Spot) : Bool :=
  k.spot.line < now.line || k.spot.index + 1024 < now.index

/-- A scan under way: the characters to come, the tokens so far with the latest first, the column of
the innermost indented collection and those of the outer ones, whether a key may start here, and the
places where a key may have started, one for each flow collection and one for the rest. -/
structure Scan where
  rest : List Spot
  tokens : List Token
  count : Nat
  indent : Int
  outer : List Int
  keyAllowed : Bool
  keys : List (Option KeyPlace)
deriving Repr, Inhabited

namespace Scan

/-- Before the first character. -/
def start (cs : List Spot) : Scan := ⟨cs, [], 0, -1, [], true, [none]⟩

/-- Whether the scan stands inside a flow collection. -/
def inFlow (s : Scan) : Bool := s.keys.length > 1

/-- Adds a token before the latest `back` ones. -/
def insert (back : Nat) (t : Token) (s : Scan) : Scan :=
  { s with tokens := s.tokens.take back ++ t :: s.tokens.drop back, count := s.count + 1 }

/-- Adds a token and goes on behind it. -/
def emit (t : Token) (rest : List Spot) (s : Scan) : Scan :=
  { s with tokens := t :: s.tokens, count := s.count + 1, rest := rest }

/-- Gives up the place where a key may have started; a required key is missed. -/
def dropKey (s : Scan) : Option Scan :=
  match s.keys with
  | some k :: keys => if k.required then none else some { s with keys := none :: keys }
  | _ => some s

/-- Remembers that a key may start here. -/
def markKey (here : Spot) (s : Scan) : Option Scan :=
  if s.keyAllowed then do
    let s ← s.dropKey
    -- At the column of an indented mapping nothing but a key can stand.
    let required := !s.inFlow && s.indent == (here.column : Int)
    return { s with keys := some ⟨required, s.count, here⟩ :: s.keys.drop 1 }
  else some s

/-- Starts an indented collection, unless one at this column is under way. -/
def indentTo (column : Nat) (back : Nat) (t : Token) (s : Scan) : Scan :=
  if !s.inFlow && s.indent < (column : Int) then
    { s.insert back t with indent := column, outer := s.indent :: s.outer }
  else s

/-- Ends the indented collections that stand to the right of a column. -/
def closeTo (column : Int) (tokens : List Token) (count : Nat) (indent : Int) :
    List Int → List Token × Nat × Int × List Int
  | [] => (tokens, count, indent, [])
  | i :: outer =>
    if indent > column then closeTo column (.blockEnd :: tokens) (count + 1) i outer
    else (tokens, count, indent, i :: outer)

/-- Ends the indented collections that stand to the right of a column, outside flow collections. -/
def dedentTo (column : Int) (s : Scan) : Scan :=
  if s.inFlow then s
  else
    let (tokens, count, indent, outer) := closeTo column s.tokens s.count s.indent s.outer
    { s with tokens, count, indent, outer }

/-- Skips blanks, comments and line ends before a token. A tab is no blank where a key may start.
A line end outside flow collections lets a key start. A byte order mark may start a line. -/
def skip (inFlow : Bool) (keyAllowed inComment : Bool) : List Spot → List Spot × Bool
  | [] => ([], keyAllowed)
  | s :: rest =>
    if isBreak s.char then skip inFlow (keyAllowed || !inFlow) false rest
    else if inComment then skip inFlow keyAllowed true rest
    else if s.char = ' ' || (s.char = '\t' && (inFlow || !keyAllowed)) then
      skip inFlow keyAllowed false rest
    else if s.char = '#' then skip inFlow keyAllowed true rest
    else if s.column = 0 && isByteOrderMark s.char then skip inFlow keyAllowed false rest
    else (s :: rest, keyAllowed)

/-- The end of the text. -/
def finish (s : Scan) : Option (List Token) := do
  let s ← (s.dedentTo (-1)).dropKey
  return s.tokens.reverse

/-- A sign that only stands between documents, and directives. -/
def between (t : Token) (rest : List Spot) (s : Scan) : Option Scan := do
  let s ← (s.dedentTo (-1)).dropKey
  return { s with keyAllowed := false }.emit t rest

/-- The start of a flow collection. -/
def openFlow (here : Spot) (t : Token) (rest : List Spot) (s : Scan) : Option Scan := do
  let s ← s.markKey here
  return { s with keys := none :: s.keys, keyAllowed := true }.emit t rest

/-- The end of a flow collection. -/
def closeFlow (t : Token) (rest : List Spot) (s : Scan) : Option Scan := do
  let s ← s.dropKey
  let keys := if s.inFlow then s.keys.drop 1 else s.keys
  return { s with keys, keyAllowed := false }.emit t rest

def comma (rest : List Spot) (s : Scan) : Option Scan := do
  let s ← s.dropKey
  return { s with keyAllowed := true }.emit .comma rest

def item (here : Spot) (rest : List Spot) (s : Scan) : Option Scan := do
  if !s.inFlow && !s.keyAllowed then none
  let s ← (s.indentTo here.column 0 .listStart).dropKey
  return { s with keyAllowed := true }.emit .item rest

def key (here : Spot) (rest : List Spot) (s : Scan) : Option Scan := do
  if !s.inFlow && !s.keyAllowed then none
  let s ← (s.indentTo here.column 0 .mapStart).dropKey
  return { s with keyAllowed := !s.inFlow }.emit .key rest

/-- The place of a key that the colon here confirms; fails when a required key came too early. -/
def confirmed? (here : Spot) (s : Scan) : Option (Option KeyPlace) :=
  match s.keys with
  | some k :: _ =>
    if k.isStale here then if k.required then none else some none else some (some k)
  | _ => some none

def value (here : Spot) (rest : List Spot) (s : Scan) : Option Scan := do
  match ← s.confirmed? here with
  | some k =>
    -- The sign goes before all that was read since the key started.
    let back := s.count - k.before
    let s := (s.insert back .key).indentTo k.spot.column (back + 1) .mapStart
    return { s with keys := none :: s.keys.drop 1, keyAllowed := false }.emit .value rest
  | none =>
    if !s.inFlow && !s.keyAllowed then none
    let s := s.indentTo here.column 0 .mapStart
    let s := { s with keys := none :: s.keys.drop 1 }
    return { s with keyAllowed := !s.inFlow }.emit .value rest

/-- A token that may be a key: an anchor, an alias, a tag or a scalar on its line. -/
def word (here : Spot) (read : Option (Token × List Spot)) (s : Scan) : Option Scan := do
  let s ← s.markKey here
  let (t, rest) ← read
  return { s with keyAllowed := false }.emit t rest

/-- A quoted scalar as a token. -/
def quoted (read : Option (List Char × List Spot)) : Option (Token × List Spot) :=
  read.map fun (text, rest) => (.scalar (String.ofList text) false, rest)

def block (literal : Bool) (rest : List Spot) (s : Scan) : Option Scan := do
  let s ← s.dropKey
  let (text, rest) ← blockScalar literal s.indent rest
  return { s with keyAllowed := true }.emit (.scalar (String.ofList text) false) rest

/-- A plain scalar; a line end after it lets a key start. -/
def plain (here : Spot) (cs : List Spot) (s : Scan) : Option Scan := do
  let s ← s.markKey here
  let (text, gap, rest) ← plainScalar s.inFlow (s.indent + 1) [] .nothing cs
  return { s with keyAllowed := gap.spansLines }.emit (.scalar (String.ofList text) true) rest

/-- Whether a plain scalar may start here. -/
def startsPlain (inFlow : Bool) (cs : List Spot) : Bool :=
  match cs with
  | [] => false
  | s :: _ =>
    !(isGap s.char || "-?:,[]\x7b\x7d#&*!|>'\"%@\x60".toList.contains s.char) ||
      (s.char == '-' && !(cs[1]?).any (isBlank ·.char)) ||
      (!inFlow && (s.char == '?' || s.char == ':') && !gapAt cs 1)

/-- Reads the token that starts at `here`. -/
def token (here : Spot) (rest : List Spot) (s : Scan) : Option Scan :=
  let cs := here :: rest
  let gapNext := gapAt cs 1
  if here.column = 0 ∧ here.char = '%' then do
    let (t, after) ← directive? rest
    s.between t after
  else if isMarker '-' cs then s.between .documentStart (rest.drop 2)
  else if isMarker '.' cs then s.between .documentEnd (rest.drop 2)
  else
    match here.char with
    | '[' => s.openFlow here .flowListStart rest
    | '\x7b' => s.openFlow here .flowMapStart rest
    | ']' => s.closeFlow .flowListEnd rest
    | '\x7d' => s.closeFlow .flowMapEnd rest
    | ',' => s.comma rest
    | '*' => s.word here ((name? rest).map fun (n, r) => (.alias n, r))
    | '&' => s.word here ((name? rest).map fun (n, r) => (.anchor n, r))
    | '!' => s.word here (tag? s.inFlow cs)
    | '\'' => s.word here (quoted (singleQuoted [] .nothing rest))
    | '"' => s.word here (quoted (doubleQuoted [] .nothing .outside rest))
    | c =>
      if c = '-' && gapNext then s.item here rest
      else if c = '?' && (s.inFlow || gapNext) then s.key here rest
      else if c = ':' && (s.inFlow || gapNext) then s.value here rest
      else if c = '|' && !s.inFlow then s.block true rest
      else if c = '>' && !s.inFlow then s.block false rest
      else if startsPlain s.inFlow cs then s.plain here cs
      else none

/-- Whether the required key outside flow collections was missed before the next character. -/
def missedKey (s : Scan) : Bool :=
  match s.keys.getLast?, s.rest with
  | some (some k), now :: _ => k.required && k.isStale now
  | _, _ => false

/-- Reads the tokens to come. Each takes at least one character, so the length of the text is fuel
enough. -/
def run : Nat → Scan → Option (List Token)
  | 0, s => s.finish
  | fuel + 1, s =>
    let (rest, keyAllowed) := skip s.inFlow s.keyAllowed false s.rest
    match rest with
    | [] => { s with rest := [], keyAllowed := keyAllowed }.finish
    | here :: rest => do
      let s ← ({ s with keyAllowed := keyAllowed }.dedentTo here.column).token here rest
      if s.missedKey then none else run fuel s

end Scan

def scan (text : String) : Option (List Token) := do
  let cs ← spots? text
  Scan.run (cs.length + 1) (.start cs)

end Token

end ToolGateway.Yaml
