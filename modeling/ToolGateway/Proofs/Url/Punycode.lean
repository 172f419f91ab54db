import Mathlib.Data.List.TakeWhile
import Mathlib.Tactic.Ring
import ToolGateway.Url.Punycode

/-!
# Punycode is read back

A text comes back from its Punycode (`decode?_encode`). The writer passes over the text once for each
code point and counts the places that it passes; the reader turns each count into the next code point
and a place. After any part of a pass the reader, with all digits that were written so far, has the
characters that are written, in the order of the text, and the count of the writer tells how far the
reader is behind (`Follows`). All that is written after the ASCII characters are small letters and
decimal digits, so that the last hyphen ends these characters.
-/

namespace ToolGateway.Url.Punycode

/-! ### Digits -/

/-- Whether a character is a digit of Punycode as it is written. -/
def IsDigit (c : Char) : Prop := ('a' ≤ c ∧ c ≤ 'z') ∨ ('0' ≤ c ∧ c ≤ '9')

theorem isDigit_digitChar {d : Nat} (h : d < 36) : IsDigit (digitChar d) := by
  have all : ∀ d < 36, ('a' ≤ digitChar d ∧ digitChar d ≤ 'z') ∨
      ('0' ≤ digitChar d ∧ digitChar d ≤ '9') := by decide
  exact all d h

theorem digitValue?_digitChar {d : Nat} (h : d < 36) : digitValue? (digitChar d) = some d := by
  have all : ∀ d < 36, digitValue? (digitChar d) = some d := by decide
  exact all d h

theorem threshold_le (k bias : Nat) : threshold k bias ≤ 26 := by
  unfold threshold
  split_ifs <;> omega

theorem digits_ne_nil (bias k q : Nat) : digits bias k q ≠ [] := by
  unfold digits
  dsimp only
  split <;> simp

theorem isDigit_of_mem_digits {bias k q : Nat} {c : Char} (h : c ∈ digits bias k q) :
    IsDigit c := by
  fun_induction digits bias k q with
  | case1 k q t low =>
    have small : threshold k bias ≤ 26 := threshold_le k bias
    rw [List.mem_singleton.mp h]
    exact isDigit_digitChar (by omega)
  | case2 k q t low ih =>
    have small : (q - t) % (36 - t) < 36 - t := Nat.mod_lt _ (by omega)
    rcases List.mem_cons.mp h with rfl | h
    · exact isDigit_digitChar (by omega)
    · exact ih h

/-- The digits of a number are read as that number, whatever comes after them. -/
theorem readDigits?_digits (bias k q i w : Nat) (rest : List Char) :
    readDigits? bias k i w (digits bias k q ++ rest) = some (i + q * w, rest) := by
  fun_induction digits bias k q generalizing i w with
  | case1 k q t low =>
    have small : threshold k bias ≤ 26 := threshold_le k bias
    have last : q < threshold k bias := by omega
    rw [List.singleton_append, readDigits?, digitValue?_digitChar (by omega)]
    exact if_pos last
  | case2 k q t low ih =>
    have small : (q - t) % (36 - t) < 36 - t := Nat.mod_lt _ (by omega)
    have more : ¬ t + (q - t) % (36 - t) < threshold k bias := by omega
    rw [List.cons_append, readDigits?, digitValue?_digitChar (by omega)]
    refine (if_neg more).trans ?_
    rw [ih]
    have parts : (q - t) % (36 - t) + (36 - t) * ((q - t) / (36 - t)) = q - t := Nat.mod_add_div _ _
    have whole : q = t + (q - t) % (36 - t) + (36 - t) * ((q - t) / (36 - t)) := by omega
    congr 2
    calc i + (t + (q - t) % (36 - t)) * w + (q - t) / (36 - t) * (w * (36 - t))
        = i + (t + (q - t) % (36 - t) + (36 - t) * ((q - t) / (36 - t))) * w := by ring
      _ = i + q * w := by rw [← whole]

/-! ### The reader -/

/-- A reading under way: the bias, the code point and the place of the last insertion, and the
characters so far. -/
structure Reading where
  bias : Nat
  point : Nat
  place : Nat
  out : List Char

def Reading.run (r : Reading) (cs : List Char) : Option (List Char) :=
  insertAll? r.bias r.point r.place r.out cs

/-- A number tells the reader to insert a character, when it is the distance to its code point and
its place. -/
theorem Reading.run_digits (r : Reading) {delta k : Nat} (c : Char)
    (distance : r.place + delta = (c.toNat - r.point) * (r.out.length + 1) + k)
    (low : r.point ≤ c.toNat) (inside : k ≤ r.out.length) (rest : List Char) :
    r.run (digits r.bias 36 delta ++ rest) =
      Reading.run ⟨adapt delta (r.out.length + 1) (r.place == 0), c.toNat, k + 1,
        r.out.take k ++ c :: r.out.drop k⟩ rest := by
  have read := readDigits?_digits r.bias 36 delta r.place 1 rest
  rw [Nat.mul_one] at read
  have point : r.point + (r.place + delta) / (r.out.length + 1) = c.toNat := by
    rw [distance, Nat.mul_comm, Nat.mul_add_div (Nat.succ_pos _), Nat.div_eq_of_lt (by omega)]
    omega
  have place : (r.place + delta) % (r.out.length + 1) = k := by
    rw [distance, Nat.mul_comm, Nat.mul_add_mod, Nat.mod_eq_of_lt (by omega)]
  have valid : ¬ (0x10FFFF < c.toNat ∨ (0xD800 ≤ c.toNat ∧ c.toNat ≤ 0xDFFF)) := by
    have := c.valid
    unfold UInt32.isValidChar Nat.isValidChar at this
    show ¬ (0x10FFFF < c.val.toNat ∨ (0xD800 ≤ c.val.toNat ∧ c.val.toNat ≤ 0xDFFF))
    omega
  cases first : digits r.bias 36 delta with
  | nil => exact absurd first (digits_ne_nil _ _ _)
  | cons d ds =>
    rw [first] at read
    unfold run
    rw [List.cons_append] at read ⊢
    rw [insertAll?]
    split
    · next none => rw [read] at none; cases none
    · next i' rest' some =>
      rw [read] at some
      cases some
      dsimp only
      rw [point, place, if_neg valid, Nat.add_sub_cancel_left, Char.ofNat_toNat]

/-! ### The reader follows the writer -/

/-- What the writer does with one character in the pass for a code point. -/
def writeChar (basic m : Nat) (w : Writing) (c : Char) : Writing :=
  if c.toNat < m then { w with delta := w.delta + 1 }
  else if c.toNat = m then
    { w with
      out := w.out ++ digits w.bias 36 w.delta
      bias := adapt w.delta (w.done + 1) (w.done == basic)
      delta := 0
      done := w.done + 1 }
  else w

/-- The digits that were written after `head` take a reader from `start` to `r`. -/
def Sent (head : List Char) (start : Reading) (out : List Char) (r : Reading) : Prop :=
  ∃ ds, out = head ++ ds ∧ (∀ d ∈ ds, IsDigit d) ∧ ∀ rest, start.run (ds ++ rest) = r.run rest

/-- Where the reader is when the pass for the code point `m` has come behind `before`, and `after` is
left. -/
structure Follows (head : List Char) (start : Reading) (basic m : Nat) (before after : List Char)
    (w : Writing) (r : Reading) : Prop where
  sent : Sent head start w.out r
  out : r.out = before.filter (·.toNat ≤ m) ++ after.filter (·.toNat < m)
  done : w.done = r.out.length
  bias : w.bias = r.bias
  first : r.place = 0 ↔ w.done = basic
  basic : basic ≤ w.done
  point : r.point ≤ m
  /-- The count of the writer is what the reader lacks to the code point and the place. -/
  delta : r.place + w.delta =
    (m - r.point) * (w.done + 1) + (before.filter (·.toNat ≤ m)).length

variable {head : List Char} {start r : Reading} {basic m n : Nat} {before after text : List Char}
  {w : Writing}

theorem Sent.digits {out : List Char} (sent : Sent head start out r) {delta k : Nat} (c : Char)
    (distance : r.place + delta = (c.toNat - r.point) * (r.out.length + 1) + k)
    (low : r.point ≤ c.toNat) (inside : k ≤ r.out.length) :
    Sent head start (out ++ Punycode.digits r.bias 36 delta)
      ⟨adapt delta (r.out.length + 1) (r.place == 0), c.toNat, k + 1,
        r.out.take k ++ c :: r.out.drop k⟩ := by
  obtain ⟨ds, rfl, plain, run⟩ := sent
  refine ⟨ds ++ Punycode.digits r.bias 36 delta, List.append_assoc _ _ _, ?_, ?_⟩
  · intro d hd
    rcases List.mem_append.mp hd with hd | hd
    · exact plain d hd
    · exact isDigit_of_mem_digits hd
  · intro rest
    rw [List.append_assoc, run, r.run_digits c distance low inside]

/-- A character below the code point is counted: it has been written before. -/
theorem Follows.below {c : Char} (h : Follows head start basic m before (c :: after) w r)
    (less : c.toNat < m) :
    Follows head start basic m (before ++ [c]) after { w with delta := w.delta + 1 } r := by
  have delta := h.delta
  have grown : (before ++ [c]).filter (·.toNat ≤ m) = before.filter (·.toNat ≤ m) ++ [c] := by
    simp [Nat.le_of_lt less]
  refine ⟨h.sent, ?_, h.done, h.bias, h.first, h.basic, h.point, ?_⟩
  · rw [h.out, grown]
    simp [less]
  · rw [grown, List.length_append, List.length_singleton]
    show r.place + (w.delta + 1) = (m - r.point) * (w.done + 1) + _
    omega

/-- A character above the code point is left for a later pass. -/
theorem Follows.above {c : Char} (h : Follows head start basic m before (c :: after) w r)
    (high : m < c.toNat) : Follows head start basic m (before ++ [c]) after w r := by
  have stays : (before ++ [c]).filter (·.toNat ≤ m) = before.filter (·.toNat ≤ m) := by
    simp [high]
  refine ⟨h.sent, ?_, h.done, h.bias, h.first, h.basic, h.point, ?_⟩
  · rw [h.out, stays]
    simp [Nat.le_of_lt high]
  · rw [stays]
    exact h.delta

/-- A character of the code point is written as the count, and the reader inserts it. -/
theorem Follows.insert {c : Char}
    (h : Follows head start basic c.toNat before (c :: after) w r) :
    ∃ r', Follows head start basic c.toNat (before ++ [c]) after
      { w with
        out := w.out ++ Punycode.digits w.bias 36 w.delta
        bias := adapt w.delta (w.done + 1) (w.done == basic)
        delta := 0
        done := w.done + 1 } r' := by
  have grown : (before ++ [c]).filter (·.toNat ≤ c.toNat) =
      before.filter (·.toNat ≤ c.toNat) ++ [c] := by simp
  have out : r.out = before.filter (·.toNat ≤ c.toNat) ++ after.filter (·.toNat < c.toNat) := by
    rw [h.out]
    simp
  have inside : (before.filter (·.toNat ≤ c.toNat)).length ≤ r.out.length := by
    rw [out, List.length_append]
    exact Nat.le_add_right _ _
  have flag : (r.place == 0) = (w.done == basic) := by
    rw [Bool.eq_iff_iff, beq_iff_eq, beq_iff_eq]
    exact h.first
  -- The place is behind the characters before `c` that are there already.
  have sent := h.sent.digits c (by rw [← h.done]; exact h.delta) h.point inside
  rw [flag, ← h.bias, ← h.done, out, List.take_left, List.drop_left] at sent
  refine ⟨_, sent, ?_, ?_, rfl, ?_, Nat.le_succ_of_le h.basic, Nat.le_refl _, ?_⟩
  · rw [grown, List.append_assoc]
    rfl
  · rw [h.done, out]
    simp [Nat.add_assoc]
  · have basic := h.basic
    constructor
    · intro none
      cases none
    · intro none
      have none : w.done + 1 = _ := none
      omega
  · rw [grown, List.length_append, Nat.sub_self, Nat.zero_mul, Nat.zero_add]
    rfl

theorem Follows.writeChar {c : Char} (h : Follows head start basic m before (c :: after) w r) :
    ∃ r', Follows head start basic m (before ++ [c]) after (writeChar basic m w c) r' := by
  unfold Punycode.writeChar
  by_cases less : c.toNat < m
  · rw [if_pos less]
    exact ⟨r, h.below less⟩
  rw [if_neg less]
  by_cases same : c.toNat = m
  · subst same
    rw [if_pos rfl]
    exact h.insert
  · rw [if_neg same]
    exact ⟨r, h.above (by omega)⟩

/-- A pass over the rest of the text. -/
theorem Follows.pass (h : Follows head start basic m before after w r) :
    ∃ r', Follows head start basic m (before ++ after) [] (after.foldl (Punycode.writeChar basic m) w)
      r' := by
  induction after generalizing before w r with
  | nil =>
    rw [List.append_nil]
    exact ⟨r, h⟩
  | cons c after ih =>
    obtain ⟨r', next⟩ := h.writeChar
    obtain ⟨r'', done⟩ := ih next
    rw [List.append_assoc] at done
    exact ⟨r'', done⟩

/-- The writer goes on to the next code point that occurs in the text. -/
theorem Follows.forward (h : Follows head start basic n [] text w r) (le : n ≤ m)
    (none : ∀ c ∈ text, c.toNat < m → c.toNat < n) :
    Follows head start basic m [] text
      { w with delta := w.delta + (m - n) * (w.done + 1), point := m } r where
  sent := h.sent
  out := by
    rw [h.out]
    refine congrArg _ (List.filter_congr fun c hc => ?_)
    have := none c hc
    simp only [decide_eq_decide]
    omega
  done := h.done
  bias := h.bias
  first := h.first
  basic := h.basic
  point := Nat.le_trans h.point le
  delta := by
    have delta := h.delta
    have point := h.point
    have apart : m - r.point = (n - r.point) + (m - n) := by omega
    rw [apart, Nat.add_mul]
    simp only [List.filter_nil, List.length_nil] at delta ⊢
    omega

/-- The writer ends the pass for a code point. -/
theorem Follows.next (h : Follows head start basic m text [] w r) :
    Follows head start basic (m + 1) [] text { w with delta := w.delta + 1, point := m + 1 } r where
  sent := h.sent
  out := by
    rw [h.out]
    simp [Nat.lt_succ_iff]
  done := h.done
  bias := h.bias
  first := h.first
  basic := h.basic
  point := Nat.le_succ_of_le h.point
  delta := by
    have delta := h.delta
    have point := h.point
    have all : (text.filter (·.toNat ≤ m)).length = w.done := by
      rw [h.done, h.out]
      simp
    have apart : m + 1 - r.point = (m - r.point) + 1 := by omega
    rw [apart, Nat.add_mul, Nat.one_mul]
    simp only [List.filter_nil, List.length_nil]
    omega

theorem Follows.writePoint (h : Follows head start basic w.point [] text w r) (le : w.point ≤ m)
    (none : ∀ c ∈ text, c.toNat < m → c.toNat < w.point) :
    ∃ r', Follows head start basic (Punycode.writePoint text basic m w).point [] text
      (Punycode.writePoint text basic m w) r' := by
  obtain ⟨r', done⟩ := (h.forward le none).pass
  exact ⟨r', done.next⟩

/-- The passes for all code points that are left. -/
theorem Follows.writeAll {ms : List Nat} (h : Follows head start basic w.point [] text w r)
    (rising : ms.Pairwise (· < ·)) (above : ∀ m ∈ ms, w.point ≤ m)
    (all : ∀ c ∈ text, w.point ≤ c.toNat → c.toNat ∈ ms) :
    ∃ r', Sent head start (ms.foldl (fun w m => Punycode.writePoint text basic m w) w).out r' ∧
      r'.out = text := by
  induction ms generalizing w r with
  | nil =>
    refine ⟨r, h.sent, ?_⟩
    rw [h.out]
    have low : ∀ c ∈ text, c.toNat < w.point := by
      intro c hc
      by_contra high
      cases all c hc (Nat.le_of_not_lt high)
    simpa using low
  | cons m ms ih =>
    obtain ⟨first, rising⟩ := List.pairwise_cons.mp rising
    have le : w.point ≤ m := above m List.mem_cons_self
    have none : ∀ c ∈ text, c.toNat < m → c.toNat < w.point := by
      intro c hc less
      by_contra high
      rcases List.mem_cons.mp (all c hc (Nat.le_of_not_lt high)) with same | later
      · omega
      · exact absurd (first _ later) (by omega)
    obtain ⟨r', next⟩ := h.writePoint le none
    refine ih next rising ?_ ?_
    · intro n hn
      exact first n hn
    · intro c hc high
      have high : m + 1 ≤ c.toNat := high
      rcases List.mem_cons.mp (all c hc (by omega)) with same | later
      · omega
      · exact later

/-! ### Whole texts -/

theorem mem_eraseRepsBy_loop {a x : Nat} {as acc : List Nat} :
    x ∈ List.eraseRepsBy.loop (· == ·) a as acc ↔ x ∈ acc ∨ x = a ∨ x ∈ as := by
  induction as generalizing a acc with
  | nil => simp [List.eraseRepsBy.loop, or_comm]
  | cons b as ih =>
    rw [List.eraseRepsBy.loop]
    split
    · next same =>
      rw [ih, List.mem_cons, beq_iff_eq.mp same]
      tauto
    · rw [ih, List.mem_cons, List.mem_cons]
      tauto

theorem pairwise_eraseRepsBy_loop {a : Nat} {as acc : List Nat} (h : (a :: as).Pairwise (· ≤ ·))
    (past : acc.Pairwise (· > ·)) (less : ∀ x ∈ acc, x < a) :
    (List.eraseRepsBy.loop (· == ·) a as acc).Pairwise (· < ·) := by
  induction as generalizing a acc with
  | nil =>
    rw [List.eraseRepsBy.loop, List.pairwise_reverse]
    exact List.pairwise_cons.mpr ⟨less, past⟩
  | cons b as ih =>
    obtain ⟨first, rest⟩ := List.pairwise_cons.mp h
    rw [List.eraseRepsBy.loop]
    split
    · next same =>
      rw [beq_iff_eq.mp same]
      exact ih rest past (by rwa [← beq_iff_eq.mp same])
    · next other =>
      have lt : a < b := Nat.lt_of_le_of_ne (first b List.mem_cons_self) (by simpa using other)
      refine ih rest (List.pairwise_cons.mpr ⟨less, past⟩) ?_
      intro x hx
      rcases List.mem_cons.mp hx with rfl | hx
      · exact lt
      · exact Nat.lt_trans (less x hx) lt

theorem mem_highPoints {text : List Char} {m : Nat} :
    m ∈ highPoints text ↔ 128 ≤ m ∧ ∃ c ∈ text, c.toNat = m := by
  have points : m ∈ ((text.map Char.toNat).filter (128 ≤ ·)).mergeSort ↔
      128 ≤ m ∧ ∃ c ∈ text, c.toNat = m := by
    rw [List.mem_mergeSort, List.mem_filter, List.mem_map, decide_eq_true_iff]
    exact and_comm
  rw [← points, highPoints, List.eraseReps]
  cases ((text.map Char.toNat).filter (128 ≤ ·)).mergeSort with
  | nil => exact Iff.rfl
  | cons a as =>
    rw [List.eraseRepsBy, mem_eraseRepsBy_loop, List.mem_cons]
    simp

theorem pairwise_highPoints (text : List Char) : (highPoints text).Pairwise (· < ·) := by
  have sorted : ((text.map Char.toNat).filter (128 ≤ ·)).mergeSort.Pairwise (· ≤ ·) := by
    have := @List.pairwise_mergeSort _ (fun a b : Nat => decide (a ≤ b))
      (fun a b c => by simpa using Nat.le_trans) (fun a b => by simpa using Nat.le_total a b)
      ((text.map Char.toNat).filter (128 ≤ ·))
    simpa using this
  rw [highPoints, List.eraseReps]
  generalize ((text.map Char.toNat).filter (128 ≤ ·)).mergeSort = points at sorted
  cases points with
  | nil => exact List.Pairwise.nil
  | cons a as => exact pairwise_eraseRepsBy_loop sorted List.Pairwise.nil (by simp)

/-- The ASCII characters of a text, with the hyphen after them. -/
def basicHead (text : List Char) : List Char :=
  if (text.filter (·.toNat < 128)).isEmpty then [] else text.filter (·.toNat < 128) ++ ['-']

/-- After the ASCII characters the Punycode of a text has digits that lead to the text. -/
theorem encode_spec (text : List Char) :
    ∃ ds, encode text = basicHead text ++ ds ∧ (∀ d ∈ ds, IsDigit d) ∧
      insertAll? 72 128 0 (text.filter (·.toNat < 128)) ds = some text := by
  have begins : Follows (basicHead text) ⟨72, 128, 0, text.filter (·.toNat < 128)⟩
      (text.filter (·.toNat < 128)).length 128 [] text
      ⟨128, 0, 72, (text.filter (·.toNat < 128)).length, basicHead text⟩
      ⟨72, 128, 0, text.filter (·.toNat < 128)⟩ :=
    { sent := ⟨[], (List.append_nil _).symm, by simp, fun _ => rfl⟩
      out := rfl
      done := rfl
      bias := rfl
      first := by simp
      basic := Nat.le_refl _
      point := Nat.le_refl _
      delta := by simp }
  have all : ∀ c ∈ text, 128 ≤ c.toNat → c.toNat ∈ highPoints text := fun c hc high =>
    mem_highPoints.mpr ⟨high, c, hc, rfl⟩
  obtain ⟨r, ⟨ds, out, plain, run⟩, done⟩ := Follows.writeAll (w := ⟨128, 0, 72, _, _⟩) begins
    (pairwise_highPoints text) (fun m hm => (mem_highPoints.mp hm).1) all
  refine ⟨ds, out, plain, ?_⟩
  have := run []
  rw [List.append_nil] at this
  refine this.trans ?_
  rw [← done, Reading.run, insertAll?]

/-- The last hyphen ends the ASCII characters. -/
theorem split_basicHead (text : List Char) {ds : List Char} (plain : ∀ d ∈ ds, (d != '-') = true) :
    ((basicHead text ++ ds).reverse.takeWhile (· != '-')).reverse = ds ∧
      (basicHead text ++ ds).take ((basicHead text ++ ds).length - ds.length - 1) =
        text.filter (·.toNat < 128) := by
  have plain : ∀ d ∈ ds.reverse, (d != '-') = true := fun d hd => plain d (List.mem_reverse.mp hd)
  unfold basicHead
  generalize text.filter (·.toNat < 128) = basic
  cases basic with
  | nil =>
    rw [if_pos List.isEmpty_nil, List.nil_append]
    refine ⟨?_, by simp⟩
    rw [List.takeWhile_eq_self_iff.mpr plain, List.reverse_reverse]
  | cons c cs =>
    rw [if_neg (by simp), List.reverse_append, List.takeWhile_append_of_pos plain]
    constructor
    · simp
    · rw [List.append_assoc]
      refine List.take_left' ?_
      simp only [List.length_append, List.length_cons, List.length_nil]
      omega

/-- A text comes back from its Punycode. -/
theorem decode?_encode (text : List Char) : decode? (encode text) = some text := by
  obtain ⟨ds, out, plain, read⟩ := encode_spec text
  have noHyphen : ∀ d ∈ ds, (d != '-') = true := by
    intro d hd
    rw [bne_iff_ne]
    rintro rfl
    have none : ¬ IsDigit '-' := by unfold IsDigit; decide
    exact none (plain '-' hd)
  have ascii : (text.filter (·.toNat < 128)).all (·.toNat < 128) = true := by simp
  obtain ⟨digits, basic⟩ := split_basicHead text noHyphen
  unfold decode?
  dsimp only
  rw [out, digits, basic, if_pos ascii, read]

end ToolGateway.Url.Punycode
