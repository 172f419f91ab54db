/-!
# Texts as lists of characters

Cutting, trimming and comparing texts. Everything is a function on lists of characters with a
wrapper on strings, so that facts about it are facts about lists.
-/

namespace ToolGateway.Text

/-- The characters with the Unicode property White_Space. -/
def isSpace (c : Char) : Bool :=
  let n := c.toNat
  (9 ≤ n && n ≤ 13) || n = 32 || n = 0x85 || n = 0xA0 || n = 0x1680 || (0x2000 ≤ n && n ≤ 0x200A) ||
    n = 0x2028 || n = 0x2029 || n = 0x202F || n = 0x205F || n = 0x3000

/-- Removes the characters of a class from both ends. -/
def stripChars (p : Char → Bool) (cs : List Char) : List Char :=
  ((cs.dropWhile p).reverse.dropWhile p).reverse

def trim (s : String) : String := String.ofList (stripChars isSpace s.toList)

/-- Whether nothing but white space is there. -/
def isBlank (s : String) : Bool := s.toList.all isSpace

/-- The lowercase form of an ASCII letter; any other character is left alone. -/
def lowerChar (c : Char) : Char :=
  if 'A' ≤ c ∧ c ≤ 'Z' then Char.ofNat (c.toNat + 32) else c

/-- The uppercase form of an ASCII letter; any other character is left alone. -/
def upperChar (c : Char) : Char :=
  if 'a' ≤ c ∧ c ≤ 'z' then Char.ofNat (c.toNat - 32) else c

def lowerAscii (s : String) : String := String.ofList (s.toList.map lowerChar)

def upperAscii (s : String) : String := String.ofList (s.toList.map upperChar)

/-- Whether two texts are equal when ASCII letters of either case count as one. -/
def equalsIgnoringCase (a b : String) : Bool := lowerAscii a == lowerAscii b

/-- The pieces between the separators: one more than there are separators. -/
def pieces (p : Char → Bool) : List Char → List (List Char)
  | [] => [[]]
  | c :: cs =>
    if p c then [] :: pieces p cs
    else
      match pieces p cs with
      | [] => [[c]]
      | piece :: rest => (c :: piece) :: rest

def splitOn (sep : Char) (s : String) : List String :=
  (pieces (· == sep) s.toList).map String.ofList

/-- Splits at the first occurrence of a character. -/
def splitOnce? (sep : Char) (cs : List Char) : Option (List Char × List Char) :=
  match cs.dropWhile (· != sep) with
  | [] => none
  | _ :: after => some (cs.takeWhile (· != sep), after)

def startsWith (s start : String) : Bool := start.toList.isPrefixOf s.toList

def endsWith (s ending : String) : Bool := ending.toList.isSuffixOf s.toList

/-- Whether `part` occurs somewhere in a list of characters. -/
def holds (part : List Char) : List Char → Bool
  | [] => part.isEmpty
  | c :: cs => part.isPrefixOf (c :: cs) || holds part cs

def includes (s part : String) : Bool := holds part.toList s.toList

def mentions (s : String) (c : Char) : Bool := s.toList.contains c

/-- The text without its first characters, when they are `start`. -/
def afterStart? (s start : String) : Option String :=
  if startsWith s start then some (String.ofList (s.toList.drop start.length)) else none

/-- The text after the last occurrence of a character, or the whole text without one. -/
def afterLast (sep : Char) (s : String) : String :=
  String.ofList (s.toList.reverse.takeWhile (· != sep)).reverse

/-- Removes a character from the end, however often it stands there. -/
def trimEnd (c : Char) (s : String) : String :=
  String.ofList (s.toList.reverse.dropWhile (· == c)).reverse

/-- Puts `new` in place of every occurrence of `old`, from the left and without overlaps; `old` has
at least one character. -/
def replaceChars (old new : List Char) : List Char → List Char
  | [] => []
  | c :: cs =>
    if old.isPrefixOf (c :: cs) then new ++ replaceChars old new (cs.drop (old.length - 1))
    else c :: replaceChars old new cs
termination_by cs => cs.length

def isEmpty (s : String) : Bool := s.toList.isEmpty

end ToolGateway.Text
