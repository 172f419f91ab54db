import ToolGateway.Json.Basic
import ToolGateway.Text.Decimal
import ToolGateway.Text.Hex

/-!
# The tokens of a JSON text

`Token.scan` splits a text into brackets, separators, strings and other scalars. Each reader gives
what it read and the rest of the text; the length lemmas above `scan` say that the rest is shorter,
which is why `scan` ends.

A numeral without fraction and exponent that fits 64 bits is an integer. Any other is a double, and
is computed from the digits that fit an unsigned 64-bit word: the word is rounded to a double, and
then multiplied or divided by a power of ten with one more rounding. `-0` is the negative zero.
-/

namespace ToolGateway.Json

inductive Token where
  | beginArray
  | endArray
  | beginObject
  | endObject
  | comma
  | colon
  | scalar (v : Json)
  | text (s : String)
deriving Repr, Inhabited

namespace Token

/-- The blanks between tokens. -/
def isBlank (c : Char) : Bool := c = ' ' || c = '\n' || c = '\r' || c = '\t'

/-! ### Strings -/

/-- The value of four hexadecimal digits. -/
def hexUnit? (a b c d : Char) : Option Nat := do
  let a ← hexValue? a
  let b ← hexValue? b
  let c ← hexValue? c
  let d ← hexValue? d
  some (((16 * a + b) * 16 + c) * 16 + d)

/-- The character that a one-letter escape stands for. -/
def unescape? (c : Char) : Option Char :=
  match c with
  | '"' => some '"'
  | '\\' => some '\\'
  | '/' => some '/'
  | 'b' => some '\x08'
  | 'f' => some '\x0c'
  | 'n' => some '\n'
  | 'r' => some '\r'
  | 't' => some '\t'
  | _ => none

/-- Reads a string after its opening quote: the characters before the closing quote, in reverse on
top of `acc`, and what follows it. `lead` is a UTF-16 lead unit that waits for its trail unit. -/
def string? (lead : Option Nat) (acc : List Char) : List Char → Option (List Char × List Char)
  | [] => none
  | '"' :: rest => if lead.isSome then none else some (acc, rest)
  | '\\' :: 'u' :: a :: b :: c :: d :: rest =>
    match hexUnit? a b c d, lead with
    | none, _ => none
    | some u, some l =>
      if 0xDC00 ≤ u ∧ u ≤ 0xDFFF then
        -- Both units are there and stand for one character.
        string? none (Char.ofNat (0x10000 + (l - 0xD800) * 0x400 + (u - 0xDC00)) :: acc) rest
      else none
    | some u, none =>
      if 0xD800 ≤ u ∧ u ≤ 0xDBFF then string? (some u) acc rest
      else if 0xDC00 ≤ u ∧ u ≤ 0xDFFF then none
      else string? none (Char.ofNat u :: acc) rest
  | '\\' :: c :: rest =>
    match unescape? c, lead with
    | some x, none => string? none (x :: acc) rest
    | _, _ => none
  | c :: rest => if c.toNat < 32 ∨ lead.isSome then none else string? none (c :: acc) rest

theorem length_string?_lt {lead : Option Nat} {acc cs t r : List Char}
    (h : string? lead acc cs = some (t, r)) : r.length < cs.length := by
  fun_induction string? lead acc cs <;> simp_all <;> omega

/-! ### Numbers -/

/-- The greatest unsigned 64-bit word. -/
def maxWord : Nat := 0xFFFFFFFFFFFFFFFF

/-- Appends digits to a word as long as it fits 64 bits: the word and how many digits it took. -/
def fill (word : Nat) : List Char → Nat → Nat × Nat
  | [], taken => (word, taken)
  | c :: rest, taken =>
    let next := 10 * word + digitValue c
    if next ≤ maxWord then fill next rest (taken + 1) else (word, taken)

/-- Divides by a power of ten, in steps of 10³⁰⁸. -/
def divideTen (x : Binary64) (k : Nat) : Binary64 :=
  if k ≤ 308 then x.scaleDown (Binary64.powerOfTen k)
  else if x.units = 0 then x
  else divideTen (x.scaleDown (Binary64.powerOfTen 308)) (k - 308)
termination_by k

/-- The double for `word · 10ᵉ`, none when it is too large. -/
def double? (negative : Bool) (word : Nat) (e : Int) : Option Binary64 := do
  let x ← Binary64.ofNat? negative word
  if 0 ≤ e then
    if e ≤ 308 then x.scaleUp? (Binary64.powerOfTen e.toNat)
    else if word = 0 then some x else none
  else some (divideTen x (-e).toNat)

/-- A numeral in parts: the digits before the point, after it, and the exponent. -/
structure Numeral where
  negative : Bool
  whole : List Char
  fraction : Option (List Char)
  exponent : Option Int

/-- The value of a numeral, none when it is too large for a double. -/
def Numeral.value? (n : Numeral) : Option Json :=
  let (word, taken) := fill 0 n.whole 0
  let dropped := n.whole.length - taken
  match n.fraction, n.exponent with
  | none, none =>
    if dropped = 0 ∧ ¬ (n.negative ∧ (word = 0 ∨ 0x8000000000000000 < word)) then
      some (.int (if n.negative then -(word : Int) else word))
    else (double? n.negative word dropped).map .float
  | fraction, exponent =>
    -- The fraction goes on filling the word, also when digits before the point were dropped.
    let (word, taken) := fill word (fraction.getD []) 0
    (double? n.negative word ((dropped : Int) - taken + exponent.getD 0)).map .float

def digits (cs : List Char) : List Char × List Char := (cs.takeWhile isDigit, cs.dropWhile isDigit)

/-- Reads the fraction of a numeral, if one starts here; it has at least one digit. -/
def fraction? : List Char → Option (Option (List Char) × List Char)
  | '.' :: rest =>
    match digits rest with
    | ([], _) => none
    | (ds, rest) => some (some ds, rest)
  | cs => some (none, cs)

/-- Reads the digits of an exponent; there is at least one. -/
def exponentDigits? (negative : Bool) (cs : List Char) : Option (Option Int × List Char) :=
  match digits cs with
  | ([], _) => none
  | (ds, rest) =>
    let e := (decimalValue 0 ds : Int)
    some (some (if negative then -e else e), rest)

/-- Reads the exponent of a numeral, if one starts here. -/
def exponent? : List Char → Option (Option Int × List Char)
  | c :: rest =>
    if c = 'e' ∨ c = 'E' then
      match rest with
      | '+' :: rest => exponentDigits? false rest
      | '-' :: rest => exponentDigits? true rest
      | rest => exponentDigits? false rest
    else some (none, c :: rest)
  | [] => some (none, [])

/-- Reads the digits before the point: `0`, or digits that start with another one. -/
def whole? (cs : List Char) : Option (List Char × List Char) :=
  match digits cs with
  | ([], _) => none
  | ('0' :: _ :: _, _) => none
  | (ds, rest) => some (ds, rest)

def numeral? (cs : List Char) : Option (Numeral × List Char) := do
  let (negative, cs) := match cs with
    | '-' :: rest => (true, rest)
    | cs => (false, cs)
  let (whole, cs) ← whole? cs
  let (fraction, cs) ← fraction? cs
  let (exponent, cs) ← exponent? cs
  some (⟨negative, whole, fraction, exponent⟩, cs)

theorem length_dropWhile_le {α : Type} (p : α → Bool) :
    ∀ l : List α, (l.dropWhile p).length ≤ l.length
  | [] => Nat.le_refl _
  | c :: cs => by
    rw [List.dropWhile_cons]
    split
    · exact Nat.le_succ_of_le (length_dropWhile_le p cs)
    · exact Nat.le_refl _

theorem length_digits_add (cs : List Char) :
    (digits cs).1.length + (digits cs).2.length = cs.length := by
  unfold digits
  rw [← List.length_append, List.takeWhile_append_dropWhile]

theorem length_whole?_lt {cs ds r : List Char} (h : whole? cs = some (ds, r)) :
    r.length < cs.length := by
  have := length_digits_add cs
  unfold whole? at h
  split at h
  · cases h
  · cases h
  · rename_i ds' rest hne _ heq
    cases h
    have := List.length_pos_iff.2 hne
    simp only [heq] at *
    omega

theorem length_fraction?_le {cs r : List Char} {f : Option (List Char)}
    (h : fraction? cs = some (f, r)) : r.length ≤ cs.length := by
  unfold fraction? at h
  split at h
  · rename_i rest
    have := length_digits_add rest
    split at h
    · cases h
    · rename_i heq
      cases h
      simp only [heq, List.length_cons] at *
      omega
  · cases h
    exact Nat.le_refl _

theorem length_exponentDigits?_le {neg : Bool} {cs r : List Char} {e : Option Int}
    (h : exponentDigits? neg cs = some (e, r)) : r.length ≤ cs.length := by
  have := length_digits_add cs
  unfold exponentDigits? at h
  split at h
  · cases h
  · rename_i heq
    cases h
    simp only [heq] at *
    omega

theorem length_exponent?_le {cs r : List Char} {e : Option Int}
    (h : exponent? cs = some (e, r)) : r.length ≤ cs.length := by
  unfold exponent? at h
  split at h
  · split at h
    · split at h
      all_goals
        have := length_exponentDigits?_le h
        simp only [List.length_cons] at *
        omega
    · grind
  · grind

theorem length_numeral?_lt {cs r : List Char} {n : Numeral} (h : numeral? cs = some (n, r)) :
    r.length < cs.length := by
  unfold numeral? at h
  simp only [Option.bind_eq_bind, Option.bind_eq_some_iff, Prod.exists] at h
  obtain ⟨w, c1, hw, f, c2, hf, e, c3, he, hr⟩ := h
  have h1 := length_whole?_lt hw
  have h2 := length_fraction?_le hf
  have h3 := length_exponent?_le he
  have h4 : c3 = r := by simp_all
  split at h1 <;> simp_all <;> omega

/-! ### The scanner -/

/-- Takes a word off the front of a text. -/
def word? (word : List Char) (cs : List Char) : Option (List Char) :=
  if word.isPrefixOf cs then some (cs.drop word.length) else none

/-- Reads one token that starts at the character `c`. -/
def read? (c : Char) (rest : List Char) : Option (Token × List Char) :=
  match c with
  | '[' => some (.beginArray, rest)
  | ']' => some (.endArray, rest)
  | '\x7b' => some (.beginObject, rest)
  | '\x7d' => some (.endObject, rest)
  | ',' => some (.comma, rest)
  | ':' => some (.colon, rest)
  | '"' => (string? none [] rest).map fun (acc, r) => (.text (String.ofList acc.reverse), r)
  | 'n' => (word? "ull".toList rest).map (.scalar .null, ·)
  | 't' => (word? "rue".toList rest).map (.scalar (.bool true), ·)
  | 'f' => (word? "alse".toList rest).map (.scalar (.bool false), ·)
  | c => (numeral? (c :: rest)).bind fun (n, r) => n.value?.map fun v => (.scalar v, r)

theorem length_word?_le {word cs r : List Char} (h : word? word cs = some r) :
    r.length ≤ cs.length := by
  unfold word? at h
  split at h
  · cases h
    simp
  · cases h

theorem length_read?_le {c : Char} {rest r : List Char} {t : Token}
    (h : read? c rest = some (t, r)) : r.length ≤ rest.length := by
  unfold read? at h
  split at h
  case h_7 =>
    simp only [Option.map_eq_some_iff, Prod.exists, Prod.mk.injEq] at h
    obtain ⟨a, b, hs, -, rfl⟩ := h
    exact Nat.le_of_lt (length_string?_lt hs)
  case h_11 =>
    simp only [Option.bind_eq_some_iff, Option.map_eq_some_iff, Prod.exists, Prod.mk.injEq] at h
    obtain ⟨n, b, hn, v, -, -, rfl⟩ := h
    have := length_numeral?_lt hn
    simp only [List.length_cons] at this
    omega
  all_goals
    first
      | (simp only [Option.some.injEq, Prod.mk.injEq] at h
         obtain ⟨-, rfl⟩ := h
         exact Nat.le_refl _)
      | (simp only [Option.map_eq_some_iff, Prod.mk.injEq] at h
         obtain ⟨a, hw, -, rfl⟩ := h
         exact length_word?_le hw)

/-- Splits a text into tokens, in reverse on top of `acc`. -/
def scanOnto (acc : List Token) (cs : List Char) : Option (List Token) :=
  match cs with
  | [] => some acc
  | c :: rest =>
    if isBlank c then scanOnto acc rest
    else
      match _h : read? c rest with
      | none => none
      | some (t, r) => scanOnto (t :: acc) r
termination_by cs.length
decreasing_by
  · simp
  · have := length_read?_le _h
    simp only [List.length_cons]
    omega

/-- The tokens of a text, none when it holds something that is not a token. -/
def scan (text : String) : Option (List Token) := (scanOnto [] text.toList).map List.reverse

end Token

end ToolGateway.Json
