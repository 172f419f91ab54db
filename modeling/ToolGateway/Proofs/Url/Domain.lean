import ToolGateway.Proofs.Except
import ToolGateway.Proofs.Text.Percent
import ToolGateway.Proofs.Text.Pieces
import ToolGateway.Proofs.Url.Punycode
import ToolGateway.Url.Domain

/-!
# The ASCII form of a domain name is final

The ASCII form of a name is read as itself (`final_of_toAscii?`). Its labels are ASCII, in lowercase
and accepted as they are (`FinalLabel`): the lowercase forms of letters have no other lowercase forms
(`fold_of_mem_fold`), and a label in Punycode is decoded to a text that was folded.
-/

namespace ToolGateway.Url.Domain

open Unicode (CaseRun caseRuns)

/-! ### Folding -/

/-- The lowercase forms of the first and of the last letter of a run. -/
def lower (r : CaseRun) : Nat := (r.first + r.shift).toNat

def upper (r : CaseRun) : Nat := (r.last + r.shift).toNat

/-- Whether the lowercase forms of a run lie outside another run, or in the steps of that run. -/
def apart (r s : CaseRun) : Bool :=
  (upper r).blt s.first || s.last.blt (lower r) ||
    ((s.step == 2) && ((r.step == 2) || (r.first == r.last)) && ((lower r + s.first) % 2 == 1))

theorem apart_caseRuns : (caseRuns.all fun r => caseRuns.all fun s => apart r s) = true := by
  decide +kernel

/-- Lowercase forms are not negative, and not among the characters that are folded in other ways,
unless the letters are. -/
theorem plain_caseRuns : (caseRuns.all fun r => 0 ≤ r.first + r.shift &&
    (upper r < 0x130 || 0x130 < lower r || (lower r % 2 == 1 && r.step == 2)) &&
    (upper r < 0xFF01 || 0xFF5E < lower r || (0xFF01 ≤ r.first && r.last ≤ 0xFF5E))) = true := by
  decide +kernel

/-- A lowercase form of one run is in no run. -/
theorem not_holds_shift {r s : CaseRun} {n : Nat} (h : apart r s = true)
    (low : 0 ≤ r.first + r.shift) (hn : r.holds n = true) :
    s.holds ((n : Int) + r.shift).toNat = false := by
  simp only [CaseRun.holds, Bool.and_eq_true, decide_eq_true_eq] at hn
  obtain ⟨⟨above, below⟩, step⟩ := hn
  simp only [apart, lower, upper, Bool.or_eq_true, Bool.and_eq_true, Nat.blt_eq, beq_iff_eq] at h
  simp only [CaseRun.holds, Bool.and_eq_false_iff, decide_eq_false_iff_not]
  rcases h with (less | greater) | ⟨⟨two, kind⟩, odd⟩
  · exact Or.inl (Or.inl (by omega))
  · exact Or.inl (Or.inr (by omega))
  · rw [two]
    by_cases early : ((n : Int) + r.shift).toNat < s.first
    · exact Or.inl (Or.inl (by omega))
    · refine Or.inr ?_
      rcases kind with same | one
      · rw [same] at step
        omega
      · omega

/-- A character in no run is its own lowercase form. -/
theorem lowercase_of_plain {c : Char} (runs : ∀ r ∈ caseRuns, r.holds c.toNat = false)
    (dotted : c.toNat ≠ 0x130) : Unicode.lowercase c = [c] := by
  rw [Unicode.lowercase, if_neg dotted]
  split
  · have capital : ¬ ('A' ≤ c ∧ c ≤ 'Z') := by
      rintro ⟨above, below⟩
      have held := runs ⟨0x41, 0x5A, 1, 32⟩ List.mem_cons_self
      have above : 0x41 ≤ c.toNat := above
      have below : c.toNat ≤ 0x5A := below
      simp [CaseRun.holds, above, below, Nat.mod_one] at held
    rw [if_neg capital]
  · rw [List.find?_eq_none.mpr fun r hr => by rw [runs r hr]; exact Bool.false_ne_true]

/-- A character that no way of folding is for. -/
theorem fold_of_plain {c : Char} (runs : ∀ r ∈ caseRuns, r.holds c.toNat = false)
    (dotted : c.toNat ≠ 0x130) (narrow : ¬ (0xFF01 ≤ c.toNat ∧ c.toNat ≤ 0xFF5E)) :
    fold c = [c] := by
  rw [fold, if_neg narrow, lowercase_of_plain runs dotted]

theorem fold_of_ascii {c : Char} (ascii : c.toNat < 128) (small : ¬ ('A' ≤ c ∧ c ≤ 'Z')) :
    fold c = [c] := by
  rw [fold, if_neg (by omega), Unicode.lowercase, if_pos ascii, if_neg small]

/-- The lowercase form of a letter in a run is in no run itself, and is no capital I with a dot. -/
theorem plain_of_run {c d : Char} {r : CaseRun} (hr : r ∈ caseRuns) (held : r.holds c.toNat = true)
    (hd : d.toNat = ((c.toNat : Int) + r.shift).toNat) :
    (∀ s ∈ caseRuns, s.holds d.toNat = false) ∧ d.toNat ≠ 0x130 := by
  have plain := List.all_eq_true.mp plain_caseRuns r hr
  simp only [Bool.and_eq_true, Bool.or_eq_true, decide_eq_true_eq, beq_iff_eq] at plain
  unfold lower upper at plain
  obtain ⟨⟨low, dotted⟩, -⟩ := plain
  have inside := held
  simp only [CaseRun.holds, Bool.and_eq_true, decide_eq_true_eq] at inside
  obtain ⟨⟨above, below⟩, step⟩ := inside
  constructor
  · intro s hs
    rw [hd]
    exact not_holds_shift (List.all_eq_true.mp (List.all_eq_true.mp apart_caseRuns r hr) s hs) low
      held
  · rcases dotted with (less | greater) | ⟨odd, two⟩
    · omega
    · omega
    · rw [two] at step
      omega

theorem fold_lowercase_of_run {c d : Char} {r : CaseRun} (hr : r ∈ caseRuns)
    (held : r.holds c.toNat = true) (narrow : ¬ (0xFF01 ≤ c.toNat ∧ c.toNat ≤ 0xFF5E))
    (hd : d.toNat = ((c.toNat : Int) + r.shift).toNat) : fold d = [d] := by
  obtain ⟨runs, dotted⟩ := plain_of_run hr held hd
  apply fold_of_plain runs dotted
  have plain := List.all_eq_true.mp plain_caseRuns r hr
  simp only [Bool.and_eq_true, Bool.or_eq_true, decide_eq_true_eq] at plain
  unfold lower upper at plain
  simp only [CaseRun.holds, Bool.and_eq_true, decide_eq_true_eq] at held
  omega

/-- What a character is folded to is not folded any further. -/
theorem fold_of_mem_fold {c d : Char} (h : d ∈ fold c) : fold d = [d] := by
  by_cases wide : 0xFF01 ≤ c.toNat ∧ c.toNat ≤ 0xFF5E
  · have all : ∀ n < 127, fold (Text.lowerChar (Char.ofNat n)) =
        [Text.lowerChar (Char.ofNat n)] := by decide
    rw [fold, if_pos wide] at h
    rw [List.mem_singleton.mp h]
    exact all _ (by omega)
  rw [fold, if_neg wide, Unicode.lowercase] at h
  split at h
  · next ascii =>
    have all : ∀ n < 128, (Unicode.lowercase (Char.ofNat n)).all (fun d => fold d == [d]) = true := by
      decide
    have same := List.all_eq_true.mp (all c.toNat ascii) d
    rw [Char.ofNat_toNat, Unicode.lowercase, if_pos ascii] at same
    exact beq_iff_eq.mp (same h)
  by_cases dotted : c.toNat = 0x130
  · rw [if_pos dotted] at h
    have all : ∀ d ∈ ['i', Char.ofNat 0x307], fold d = [d] :=
      Text.forall_mem (by decide +kernel)
    exact all d h
  rw [if_neg dotted] at h
  split at h
  · next r found =>
    rw [List.mem_singleton.mp h]
    by_cases valid : (((c.toNat : Int) + r.shift).toNat).isValidChar
    · have held : r.holds c.toNat = true := List.find?_some (p := fun r : CaseRun => r.holds c.toNat) found
      refine fold_lowercase_of_run (List.mem_of_find?_eq_some found) held wide ?_
      rw [Char.ofNat, dif_pos valid]
      rfl
    · have none : Char.ofNat ((c.toNat : Int) + r.shift).toNat = Char.ofNat 0 := by
        rw [Char.ofNat, dif_neg valid]
        rfl
      rw [none]
      decide
  · next found =>
    rw [List.mem_singleton.mp h]
    refine fold_of_plain ?_ dotted wide
    intro r hr
    exact Bool.eq_false_iff.mpr (List.find?_eq_none.mp found r hr)

/-! ### Labels -/

theorem isDot_of_ascii {c : Char} (ascii : c.toNat < 128) : isDot c = (c == '.') :=
  forall_ascii (P := fun c => isDot c = (c == '.')) (by decide) ascii

theorem not_isIgnored_of_ascii {c : Char} (ascii : c.toNat < 128) : isIgnored c = false :=
  forall_ascii (P := fun c => isIgnored c = false) (by decide) ascii

/-- A character of a label in its ASCII form. -/
structure FinalChar (c : Char) : Prop where
  ascii : c.toNat < 128
  folded : fold c = [c]
  inside : isDot c = false

/-- A label in its ASCII form. -/
structure FinalLabel (l : List Char) : Prop where
  chars : ∀ c ∈ l, FinalChar c
  accepted : label? l = some l

theorem finalChar_of_ascii {c : Char} (ascii : c.toNat < 128) (small : ¬ ('A' ≤ c ∧ c ≤ 'Z'))
    (inside : c ≠ '.') : FinalChar c where
  ascii := ascii
  folded := fold_of_ascii ascii small
  inside := by
    rw [isDot_of_ascii ascii]
    exact beq_false_of_ne inside

theorem finalChar_of_isDigit {c : Char} (h : Punycode.IsDigit c) : FinalChar c := by
  have bounds : (97 ≤ c.toNat ∧ c.toNat ≤ 122) ∨ (48 ≤ c.toNat ∧ c.toNat ≤ 57) := h
  have ascii : c.toNat < 128 := by omega
  obtain ⟨small, inside⟩ := forall_ascii (P := fun c =>
    (97 ≤ c.toNat ∧ c.toNat ≤ 122) ∨ (48 ≤ c.toNat ∧ c.toNat ≤ 57) →
      ¬ ('A' ≤ c ∧ c ≤ 'Z') ∧ c ≠ '.') (by decide) ascii bounds
  exact finalChar_of_ascii ascii small inside

theorem finalChar_of_mem_marker {c : Char} (h : c ∈ marker) : FinalChar c := by
  have all : ∀ c ∈ marker, c.toNat < 128 ∧ ¬ ('A' ≤ c ∧ c ≤ 'Z') ∧ c ≠ '.' :=
    Text.forall_mem (by decide)
  obtain ⟨ascii, small, inside⟩ := all c h
  exact finalChar_of_ascii ascii small inside

/-- The Punycode of a text holds its ASCII characters, hyphens and digits. -/
theorem finalChar_of_mem_encode {cs : List Char} {c : Char} (folded : ∀ c ∈ cs, fold c = [c])
    (inside : ∀ c ∈ cs, isDot c = false) (h : c ∈ Punycode.encode cs) : FinalChar c := by
  obtain ⟨ds, out, plain, -⟩ := Punycode.encode_spec cs
  rw [out] at h
  rcases List.mem_append.mp h with h | h
  · unfold Punycode.basicHead at h
    split at h
    · cases h
    · rcases List.mem_append.mp h with h | h
      · obtain ⟨mem, ascii⟩ := List.mem_filter.mp h
        exact ⟨of_decide_eq_true ascii, folded c mem, inside c mem⟩
      · rw [List.mem_singleton.mp h]
        exact finalChar_of_ascii (by decide) (by decide) (by decide)
  · exact finalChar_of_isDigit (plain c h)

/-- The ASCII form of a label is accepted as it is. -/
theorem finalLabel_of_label? {cs l : List Char} (folded : ∀ c ∈ cs, fold c = [c])
    (inside : ∀ c ∈ cs, isDot c = false) (h : label? cs = some l) : FinalLabel l := by
  have accepted := h
  unfold label? at h
  split at h
  · next ascii =>
    have chars : ∀ c ∈ cs, FinalChar c := fun c hc =>
      ⟨of_decide_eq_true (List.all_eq_true.mp ascii c hc), folded c hc, inside c hc⟩
    have same : cs = l := by
      split at h
      · split at h
        · split at h
          · exact Option.some.inj h
          · cases h
        · cases h
      · exact Option.some.inj h
    subst same
    exact ⟨chars, accepted⟩
  · next wide =>
    split at h
    · next labels =>
      rw [Bool.and_eq_true] at labels
      cases h
      have chars : ∀ c ∈ marker ++ Punycode.encode cs, FinalChar c := by
        intro c hc
        rcases List.mem_append.mp hc with hc | hc
        · exact finalChar_of_mem_marker hc
        · exact finalChar_of_mem_encode folded inside hc
      have ascii : (marker ++ Punycode.encode cs).all (·.toNat < 128) = true :=
        List.all_eq_true.mpr fun c hc => decide_eq_true (chars c hc).ascii
      have some : cs.any (128 ≤ ·.toNat) = true := by
        simpa using wide
      have all : cs.all (fun c => isLabelChar c && fold c == [c]) = true := by
        refine List.all_eq_true.mpr fun c hc => ?_
        rw [List.all_eq_true.mp labels.1 c hc, folded c hc]
        exact beq_self_eq_true [c]
      refine ⟨chars, ?_⟩
      rw [label?, if_pos ascii, if_pos (by simp), List.drop_left, Punycode.decode?_encode]
      simp only [some, all, Bool.and_self, if_true]
    · cases h

/-! ### Names -/

variable {ls : List (List Char)} {name : List Char}

theorem chars_of_final (final : ∀ l ∈ ls, FinalLabel l) :
    ∀ c ∈ ['.'].intercalate ls, c.toNat < 128 ∧ fold c = [c] := by
  intro c hc
  rcases Text.of_mem_intercalate hc with rfl | ⟨l, hl, hc⟩
  · exact ⟨by decide, by decide⟩
  · have char := (final l hl).chars c hc
    exact ⟨char.ascii, char.folded⟩

theorem mapM_eq_some_self {α : Type} {f : α → Option α} {xs : List α}
    (h : ∀ x ∈ xs, f x = some x) : xs.mapM f = some xs := by
  induction xs with
  | nil => rfl
  | cons x xs ih =>
    rw [List.mapM_cons, h x List.mem_cons_self, ih fun y hy => h y (List.mem_cons_of_mem x hy)]
    rfl

theorem exists_mem_of_mapM {α β : Type} {f : α → Option β} {xs : List α} {ys : List β}
    (h : xs.mapM f = some ys) {y : β} (hy : y ∈ ys) : ∃ x ∈ xs, f x = some y := by
  induction xs generalizing ys with
  | nil =>
    cases h
    cases hy
  | cons x xs ih =>
    rw [List.mapM_cons, Option.bind_eq_bind, Option.bind_eq_some_iff] at h
    obtain ⟨first, hfirst, h⟩ := h
    rw [Option.bind_eq_bind, Option.bind_eq_some_iff] at h
    obtain ⟨rest, hrest, h⟩ := h
    cases h
    rcases List.mem_cons.mp hy with rfl | hy
    · exact ⟨x, List.mem_cons_self, hfirst⟩
    · obtain ⟨z, hz, same⟩ := ih hrest hy
      exact ⟨z, List.mem_cons_of_mem x hz, same⟩

theorem flatMap_eq_self {f : Char → List Char} {cs : List Char} (h : ∀ c ∈ cs, f c = [c]) :
    cs.flatMap f = cs := by
  induction cs with
  | nil => rfl
  | cons c cs ih =>
    rw [List.flatMap_cons, h c List.mem_cons_self, ih fun d hd => h d (List.mem_cons_of_mem c hd)]
    rfl

/-- Labels in their ASCII form, joined with dots, are a name in its ASCII form. -/
theorem toAscii?_intercalate (ne : ls ≠ []) (final : ∀ l ∈ ls, FinalLabel l)
    (allowed : ∀ c ∈ ['.'].intercalate ls, isForbidden c = false) :
    toAscii? (Percent.decodeBytes (Utf8.encode (String.ofList (['.'].intercalate ls)))) =
      some (['.'].intercalate ls) := by
  have chars := chars_of_final final
  have noPercent : 37 ∉ Utf8.encode (String.ofList (['.'].intercalate ls)) := by
    apply Percent.notMem_encode
    rw [String.toList_ofList]
    exact fun percent => absurd (allowed '%' percent) (by decide)
  have kept : (['.'].intercalate ls).filter (!isIgnored ·) = ['.'].intercalate ls := by
    rw [List.filter_eq_self]
    intro c hc
    rw [not_isIgnored_of_ascii (chars c hc).1]
    rfl
  have folded : (['.'].intercalate ls).flatMap fold = ['.'].intercalate ls :=
    flatMap_eq_self fun c hc => (chars c hc).2
  have cut : Text.pieces isDot (['.'].intercalate ls) = ls :=
    Text.pieces_intercalate (by decide) ne fun l hl c hc => ((final l hl).chars c hc).inside
  have none : (['.'].intercalate ls).any isForbidden = false := by
    rw [List.any_eq_false]
    intro c hc
    rw [allowed c hc]
    exact Bool.false_ne_true
  rw [Percent.decodeBytes, Percent.decodeBytesBy_of_notMem noPercent, toAscii?, Utf8.decode?_encode]
  simp only [Option.bind_eq_bind, Option.bind_some, String.toList_ofList, kept, folded, cut,
    mapM_eq_some_self fun l hl => (final l hl).accepted, none, Bool.false_eq_true, if_false]

theorem eq_nil_of_mapM {α β : Type} {f : α → Option β} {xs : List α} (h : xs.mapM f = some []) :
    xs = [] := by
  cases xs with
  | nil => rfl
  | cons x xs =>
    rw [List.mapM_cons, Option.bind_eq_bind, Option.bind_eq_some_iff] at h
    obtain ⟨first, -, h⟩ := h
    rw [Option.bind_eq_bind, Option.bind_eq_some_iff] at h
    obtain ⟨rest, -, h⟩ := h
    cases h

/-- A name in its ASCII form. -/
structure Final (name : List Char) : Prop where
  ascii : ∀ c ∈ name, c.toNat < 128
  allowed : ∀ c ∈ name, isForbidden c = false
  reads : toAscii? (Percent.decodeBytes (Utf8.encode (String.ofList name))) = some name

theorem final_intercalate (ne : ls ≠ []) (final : ∀ l ∈ ls, FinalLabel l)
    (allowed : ∀ c ∈ ['.'].intercalate ls, isForbidden c = false) :
    Final (['.'].intercalate ls) where
  ascii c hc := (chars_of_final final c hc).1
  allowed := allowed
  reads := toAscii?_intercalate ne final allowed

/-- The ASCII form of a name is read as itself. -/
theorem final_of_toAscii? {bytes : List UInt8} (h : toAscii? bytes = some name) : Final name := by
  rw [toAscii?, Option.bind_eq_bind, Option.bind_eq_some_iff] at h
  obtain ⟨text, -, h⟩ := h
  rw [Option.bind_eq_bind, Option.bind_eq_some_iff] at h
  obtain ⟨ls, labels, h⟩ := h
  dsimp only at h
  split at h
  · cases h
  · next allowed =>
    cases h
    have final : ∀ l ∈ ls, FinalLabel l := by
      intro l hl
      obtain ⟨piece, hpiece, made⟩ := exists_mem_of_mapM labels hl
      refine finalLabel_of_label? ?_ (fun c hc => (Text.mem_of_mem_pieces hpiece hc).2) made
      intro c hc
      obtain ⟨d, -, hd⟩ := List.mem_flatMap.mp (Text.mem_of_mem_pieces hpiece hc).1
      exact fold_of_mem_fold hd
    refine final_intercalate ?_ final ?_
    · rintro rfl
      exact Text.pieces_ne_nil _ _ (eq_nil_of_mapM labels)
    · simpa using allowed

end ToolGateway.Url.Domain
