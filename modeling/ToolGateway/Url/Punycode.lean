/-!
# Punycode

Punycode writes a text in letters, digits and hyphens: first its ASCII characters, then a hyphen,
then where the other characters go, as differences written in a base of 36 with a bias that adapts.
-/

namespace ToolGateway.Url.Punycode

/-- The digit with a value below 36. -/
def digitChar (d : Nat) : Char := if d < 26 then Char.ofNat (97 + d) else Char.ofNat (22 + d)

def digitValue? (c : Char) : Option Nat :=
  if 'a' ≤ c ∧ c ≤ 'z' then some (c.toNat - 97)
  else if 'A' ≤ c ∧ c ≤ 'Z' then some (c.toNat - 65)
  else if '0' ≤ c ∧ c ≤ '9' then some (c.toNat - 22)
  else none

/-- The threshold at the position `k`: at least 1 and at most 26. -/
def threshold (k bias : Nat) : Nat := if k ≤ bias then 1 else if bias + 26 ≤ k then 26 else k - bias

/-- Divides by 35 while the value is above 455, and counts in steps of 36. -/
def shrink (delta k : Nat) : Nat × Nat :=
  if delta > 455 then shrink (delta / 35) (k + 36) else (delta, k)
termination_by delta
decreasing_by omega

/-- The next bias. -/
def adapt (delta points : Nat) (first : Bool) : Nat :=
  -- The first difference is usually far larger than those after it.
  let delta := if first then delta / 700 else delta / 2
  let (delta, k) := shrink (delta + delta / points) 0
  k + 36 * delta / (delta + 38)

/-- The digits of a difference. -/
def digits (bias k q : Nat) : List Char :=
  let t := threshold k bias
  if q < t ∨ 36 ≤ t then [digitChar q]
  else digitChar (t + (q - t) % (36 - t)) :: digits bias (k + 36) ((q - t) / (36 - t))
termination_by q
decreasing_by
  have h1 : 1 ≤ threshold k bias := by unfold threshold; split <;> (try split) <;> omega
  have h2 : q - threshold k bias < q := by omega
  exact Nat.lt_of_le_of_lt (Nat.div_le_self _ _) h2

/-- A writing under way: the next code point to insert, the difference so far, the bias, how many
characters are written, and the digits so far. -/
structure Writing where
  point : Nat
  delta : Nat
  bias : Nat
  done : Nat
  out : List Char

/-- Writes the characters of the text that are the code point `m`. -/
def writePoint (text : List Char) (basic m : Nat) (w : Writing) : Writing :=
  let w := { w with delta := w.delta + (m - w.point) * (w.done + 1), point := m }
  let w := text.foldl (fun w c =>
    if c.toNat < m then { w with delta := w.delta + 1 }
    else if c.toNat = m then
      { w with
        out := w.out ++ digits w.bias 36 w.delta
        bias := adapt w.delta (w.done + 1) (w.done == basic)
        delta := 0
        done := w.done + 1 }
    else w) w
  { w with delta := w.delta + 1, point := m + 1 }

/-- The code points above ASCII in rising order, each once. -/
def highPoints (text : List Char) : List Nat :=
  (((text.map Char.toNat).filter (128 ≤ ·)).mergeSort).eraseReps

def encode (text : List Char) : List Char :=
  let basic := text.filter (·.toNat < 128)
  let start : Writing := ⟨128, 0, 72, basic.length, if basic.isEmpty then [] else basic ++ ['-']⟩
  ((highPoints text).foldl (fun w m => writePoint text basic.length m w) start).out

/-- Reads the digits of a difference: its value and the rest. -/
def readDigits? (bias k i w : Nat) : List Char → Option (Nat × List Char)
  | [] => none
  | c :: rest => do
    let d ← digitValue? c
    let i := i + d * w
    let t := threshold k bias
    if d < t then some (i, rest) else readDigits? bias (k + 36) i (w * (36 - t)) rest

theorem length_readDigits?_lt {bias k i w : Nat} {cs r : List Char} {n : Nat}
    (h : readDigits? bias k i w cs = some (n, r)) : r.length < cs.length := by
  induction cs generalizing k i w with
  | nil => simp [readDigits?] at h
  | cons c rest ih =>
    simp only [readDigits?, Option.bind_eq_bind, Option.bind_eq_some_iff] at h
    obtain ⟨d, -, h⟩ := h
    split at h
    · cases h
      simp
    · have := ih h
      simp only [List.length_cons]
      omega

/-- Inserts the characters that the digits describe. -/
def insertAll? (bias point i : Nat) (out : List Char) (cs : List Char) : Option (List Char) :=
  match cs with
  | [] => some out
  | c :: rest =>
    match _h : readDigits? bias 36 i 1 (c :: rest) with
    | none => none
    | some (i', rest') =>
      let size := out.length + 1
      let point := point + i' / size
      let place := i' % size
      if 0x10FFFF < point ∨ (0xD800 ≤ point ∧ point ≤ 0xDFFF) then none
      else
        insertAll? (adapt (i' - i) size (i == 0)) point (place + 1)
          (out.take place ++ Char.ofNat point :: out.drop place) rest'
termination_by cs.length
decreasing_by exact length_readDigits?_lt _h

/-- The text with the given Punycode; none when there is no such text. -/
def decode? (cs : List Char) : Option (List Char) :=
  let digits := (cs.reverse.takeWhile (· != '-')).reverse
  let basic := cs.take (cs.length - digits.length - 1)
  if basic.all (·.toNat < 128) then insertAll? 72 128 0 basic digits else none

end ToolGateway.Url.Punycode
