import ToolGateway.Text.Basic
import ToolGateway.Text.Decimal

/-!
# Cron schedules

A schedule has a field for seconds, minutes, hours, days of the month, months and days of the week,
and perhaps one for years. A field is a list of numbers, names, ranges and steps. Fields need no
blanks between them where they can be told apart. Some schedules have a word of their own, such as
`@daily`.
-/

namespace ToolGateway.Cron

/-- The unit of a field: its least and greatest number, its names, and whether a question mark
stands for all of it. -/
structure Scale where
  least : Nat
  greatest : Nat
  names : List (List String × Nat)
  question : Bool
deriving Repr, Inhabited

def months : List (List String × Nat) :=
  [(["jan", "january"], 1), (["feb", "february"], 2), (["mar", "march"], 3), (["apr", "april"], 4),
    (["may"], 5), (["jun", "june"], 6), (["jul", "july"], 7), (["aug", "august"], 8),
    (["sep", "september"], 9), (["oct", "october"], 10), (["nov", "november"], 11),
    (["dec", "december"], 12)]

def days : List (List String × Nat) :=
  [(["sun", "sunday"], 1), (["mon", "monday"], 2), (["tue", "tues", "tuesday"], 3),
    (["wed", "wednesday"], 4), (["thu", "thurs", "thursday"], 5), (["fri", "friday"], 6),
    (["sat", "saturday"], 7)]

/-- The units of the fields that every schedule has. -/
def scales : List Scale :=
  [⟨0, 59, [], false⟩, ⟨0, 59, [], false⟩, ⟨0, 23, [], false⟩, ⟨1, 31, [], true⟩,
    ⟨1, 12, months, false⟩, ⟨1, 7, days, true⟩]

/-- The unit of the last field. -/
def years : Scale := ⟨1970, 2100, [], false⟩

/-! ### What a field says -/

inductive Part where
  | all
  | point (n : Nat)
  | range (first last : Nat)
  | named (first last : String)
deriving DecidableEq, Repr, Inhabited

/-- An entry of a field: a part, every so many numbers of a part, or a name. -/
inductive Entry where
  | part (p : Part)
  | every (p : Part) (step : Nat)
  | name (n : String)
deriving DecidableEq, Repr, Inhabited

namespace Scale

def number? (s : Scale) (n : Nat) : Option Nat :=
  if s.least ≤ n ∧ n ≤ s.greatest then some n else none

/-- The number with a name, in either case. -/
def named? (s : Scale) (name : String) : Option Nat :=
  (s.names.find? (·.1.contains (Text.lowerAscii name))).map (·.2)

/-- The numbers from one to another, which must not be the lesser one. -/
def between? (s : Scale) (first last : Nat) : Option (List Nat) := do
  let first ← s.number? first
  let last ← s.number? last
  if first ≤ last then return List.range' first (last + 1 - first) else none

/-- The numbers of a part; a point may turn out to be no number of the unit. -/
def part? (s : Scale) : Part → Option (List Nat)
  | .all => some (List.range' s.least (s.greatest + 1 - s.least))
  | .point n => some [n]
  | .range first last => s.between? first last
  | .named first last => do s.between? (← s.named? first) (← s.named? last)

/-- The part that steps are taken in; those from a point go to the end of the unit. -/
def stepped? (s : Scale) : Part → Option (List Nat)
  | .point n => s.between? n s.greatest
  | p => s.part? p

/-- Every `n`-th number of a list, from the first on. -/
def everyNth (n : Nat) (ns : List Nat) : List Nat :=
  (ns.zipIdx.filter (·.2 % n = 0)).map (·.1)

def entry? (s : Scale) : Entry → Option (List Nat)
  | .part p => s.part? p
  | .every p step => if step = 0 then none else (s.stepped? p).map (everyNth step)
  | .name n => (s.named? n).map ([·])

/-- The numbers of a field, all of which must belong to the unit. -/
def numbers? (s : Scale) (entries : List Entry) : Option (List Nat) := do
  let ns ← entries.mapM s.entry?
  ns.flatten.mapM s.number?

end Scale

/-! ### Reading -/

/-- Reads a number of 32 bits. -/
def ordinal? (cs : List Char) : Option (Nat × List Char) :=
  match cs.takeWhile isDigit with
  | [] => none
  | ds =>
    let n := decimalValue 0 ds
    if n < 0x100000000 then some (n, cs.dropWhile isDigit) else none

def name? (cs : List Char) : Option (String × List Char) :=
  match cs.takeWhile Char.isAlpha with
  | [] => none
  | w => some (String.ofList w, cs.dropWhile Char.isAlpha)

/-- Reads two things with a sign between them. -/
def pair? {α β : Type} (sign : Char) (first : List Char → Option (α × List Char))
    (second : List Char → Option (β × List Char)) (cs : List Char) :
    Option ((α × β) × List Char) := do
  let (a, cs) ← first cs
  match cs with
  | c :: cs =>
    if c = sign then
      let (b, cs) ← second cs
      return ((a, b), cs)
    else none
  | [] => none

def readPart? (s : Scale) (cs : List Char) : Option (Part × List Char) :=
  match cs with
  | '*' :: cs => some (.all, cs)
  | '?' :: rest => if s.question then some (.all, rest) else none
  | _ =>
    ((pair? '-' ordinal? ordinal? cs).map fun ((a, b), cs) => (.range a b, cs)).orElse fun _ =>
      ((ordinal? cs).map fun (n, cs) => (.point n, cs)).orElse fun _ =>
        (pair? '-' name? name? cs).map fun ((a, b), cs) => (.named a b, cs)

def readEntry? (s : Scale) (cs : List Char) : Option (Entry × List Char) :=
  ((pair? '/' (readPart? s) ordinal? cs).map fun ((p, n), cs) => (.every p n, cs)).orElse fun _ =>
    ((readPart? s cs).map fun (p, cs) => (.part p, cs)).orElse fun _ =>
      (name? cs).map fun (n, cs) => (.name n, cs)

/-- Reads the entries after the first, each behind a comma. Every entry takes a character, so the
length of the text is fuel enough. -/
def readMore (s : Scale) : Nat → List Char → List Entry × List Char
  | fuel + 1, ',' :: cs =>
    match readEntry? s cs with
    | some (e, cs) =>
      let (es, cs) := readMore s fuel cs
      (e :: es, cs)
    | none => ([], ',' :: cs)
  | _, cs => ([], cs)

def isBlank (c : Char) : Bool := c = ' ' || c = '\t' || c = '\r' || c = '\n'

/-- Reads a field with the blanks around it. -/
def readField? (s : Scale) (cs : List Char) : Option (List Nat × List Char) := do
  let (e, cs) ← readEntry? s (cs.dropWhile isBlank)
  let (es, cs) := readMore s cs.length cs
  let ns ← s.numbers? (e :: es)
  return (ns, cs.dropWhile isBlank)

def readFields? : List Scale → List Char → Option (List (List Nat) × List Char)
  | [], cs => some ([], cs)
  | s :: ss, cs => do
    let (ns, cs) ← readField? s cs
    let (rest, cs) ← readFields? ss cs
    return (ns :: rest, cs)

/-- The numbers at which a schedule is due: for each unit from seconds to days of the week, and the
years when they are given. -/
structure Schedule where
  fields : List (List Nat)
  years : Option (List Nat)
deriving DecidableEq, Repr, Inhabited

/-- The schedules with a word of their own. -/
def words : List (String × List (List Nat)) :=
  let all (s : Scale) := List.range' s.least (s.greatest + 1 - s.least)
  let hours := all ⟨0, 23, [], false⟩
  let monthDays := all ⟨1, 31, [], true⟩
  let everyMonth := all ⟨1, 12, [], false⟩
  let weekDays := all ⟨1, 7, [], true⟩
  [("@yearly", [[0], [0], [0], [1], [1], weekDays]),
    ("@monthly", [[0], [0], [0], [1], everyMonth, weekDays]),
    ("@weekly", [[0], [0], [0], monthDays, everyMonth, [1]]),
    ("@daily", [[0], [0], [0], monthDays, everyMonth, weekDays]),
    ("@hourly", [[0], [0], hours, monthDays, everyMonth, weekDays])]

def parse? (text : String) : Option Schedule :=
  match words.lookup (String.ofList (Text.stripChars isBlank text.toList)) with
  | some fields => some ⟨fields, none⟩
  | none =>
    match readFields? scales text.toList with
    | none => none
    | some (fields, []) => some ⟨fields, none⟩
    | some (fields, rest) =>
      match readField? years rest with
      | some (ns, []) => some ⟨fields, some ns⟩
      | _ => none

end ToolGateway.Cron
