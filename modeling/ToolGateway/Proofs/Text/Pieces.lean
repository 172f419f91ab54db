import Mathlib.Data.List.TakeWhile
import ToolGateway.Text.Basic

/-!
# Cutting texts

Texts that are joined with a separator are cut into the same texts again exactly when there is one
and none of them holds a separator (`pieces_intercalate_iff`). A text can be cut before or after its
characters are replaced, if the separators stay (`pieces_flatMap`).
-/

namespace ToolGateway.Text

variable {p : Char → Bool} {sep : Char} {cs : List Char} {parts : List (List Char)}

theorem pieces_ne_nil (p : Char → Bool) (cs : List Char) : pieces p cs ≠ [] := by
  cases cs with
  | nil => exact List.cons_ne_nil _ _
  | cons c cs =>
    unfold pieces
    split
    · exact List.cons_ne_nil _ _
    · split <;> exact List.cons_ne_nil _ _

theorem pieces_cons_of_neg {c : Char} (h : p c = false) (cs : List Char) :
    ∃ piece rest, pieces p cs = piece :: rest ∧ pieces p (c :: cs) = (c :: piece) :: rest := by
  cases eq : pieces p cs with
  | nil => exact absurd eq (pieces_ne_nil p cs)
  | cons piece rest =>
    refine ⟨piece, rest, rfl, ?_⟩
    rw [pieces, if_neg (by rw [h]; exact Bool.false_ne_true), eq]

theorem pieces_cons_of_pos {c : Char} (h : p c = true) :
    pieces p (c :: cs) = [] :: pieces p cs := by
  rw [pieces, if_pos h]

theorem pieces_of_forall (h : ∀ c ∈ cs, p c = false) : pieces p cs = [cs] := by
  induction cs with
  | nil => rfl
  | cons c cs ih =>
    obtain ⟨piece, rest, same, cut⟩ := pieces_cons_of_neg (h c List.mem_cons_self) cs
    rw [ih fun d hd => h d (List.mem_cons_of_mem c hd)] at same
    cases same
    exact cut

theorem pieces_append_cons (h : ∀ c ∈ cs, p c = false) (hsep : p sep = true)
    (rest : List Char) : pieces p (cs ++ sep :: rest) = cs :: pieces p rest := by
  induction cs with
  | nil => exact pieces_cons_of_pos hsep
  | cons c cs ih =>
    obtain ⟨piece, more, same, cut⟩ :=
      pieces_cons_of_neg (h c List.mem_cons_self) (cs ++ sep :: rest)
    rw [ih fun d hd => h d (List.mem_cons_of_mem c hd)] at same
    cases same
    exact cut

theorem pieces_intercalate (hsep : p sep = true) (ne : parts ≠ [])
    (h : ∀ part ∈ parts, ∀ c ∈ part, p c = false) :
    pieces p ([sep].intercalate parts) = parts := by
  induction parts with
  | nil => exact absurd rfl ne
  | cons part parts ih =>
    cases parts with
    | nil =>
      rw [List.intercalate_singleton]
      exact pieces_of_forall (h part List.mem_cons_self)
    | cons next parts =>
      rw [List.intercalate_cons_cons, List.append_assoc, List.singleton_append,
        pieces_append_cons (h part List.mem_cons_self) hsep]
      rw [ih (List.cons_ne_nil _ _) fun q hq => h q (List.mem_cons_of_mem part hq)]

/-- The characters of a piece are those of the text, without separators. -/
theorem mem_of_mem_pieces {piece : List Char} {c : Char} (h : piece ∈ pieces p cs)
    (hc : c ∈ piece) : c ∈ cs ∧ p c = false := by
  induction cs generalizing piece with
  | nil =>
    rw [List.mem_singleton.mp h] at hc
    cases hc
  | cons d cs ih =>
    cases hd : p d with
    | true =>
      rw [pieces_cons_of_pos hd] at h
      rcases List.mem_cons.mp h with rfl | h
      · cases hc
      · obtain ⟨mem, neg⟩ := ih h hc
        exact ⟨List.mem_cons_of_mem d mem, neg⟩
    | false =>
      obtain ⟨first, rest, same, cut⟩ := pieces_cons_of_neg hd cs
      rw [cut] at h
      have later : ∀ part ∈ first :: rest, c ∈ part → c ∈ d :: cs ∧ p c = false := by
        intro part hpart hc
        obtain ⟨mem, neg⟩ := ih (same ▸ hpart) hc
        exact ⟨List.mem_cons_of_mem d mem, neg⟩
      rcases List.mem_cons.mp h with rfl | h
      · rcases List.mem_cons.mp hc with rfl | hc
        · exact ⟨List.mem_cons_self, hd⟩
        · exact later first List.mem_cons_self hc
      · exact later piece (List.mem_cons_of_mem _ h) hc

/-- Parts that are joined with a separator are cut into the same parts exactly when there is one
and none of them holds a separator. -/
theorem pieces_intercalate_iff (hsep : p sep = true) :
    pieces p ([sep].intercalate parts) = parts ↔
      parts ≠ [] ∧ ∀ part ∈ parts, ∀ c ∈ part, p c = false := by
  constructor
  · intro same
    refine ⟨fun none => ?_, fun part mem c hc => ?_⟩
    · exact pieces_ne_nil p _ (same.trans none)
    · rw [← same] at mem
      exact (mem_of_mem_pieces mem hc).2
  · rintro ⟨filled, plain⟩
    exact pieces_intercalate hsep filled plain

/-- Parts that are not empty and hold no separator are told apart by what they are joined to. -/
theorem eq_of_intercalate_eq {others : List (List Char)} (hsep : p sep = true)
    (plain : ∀ part ∈ parts ++ others, part ≠ [] ∧ ∀ c ∈ part, p c = false)
    (same : [sep].intercalate parts = [sep].intercalate others) : parts = others := by
  -- Only no part and one empty part are joined to nothing.
  have read : ∀ parts : List (List Char), (∀ part ∈ parts, part ≠ [] ∧ ∀ c ∈ part, p c = false) →
      parts = (pieces p ([sep].intercalate parts)).filter (· ≠ []) := by
    intro parts plain
    by_cases none : parts = []
    · rw [none, List.intercalate_nil]
      simp [pieces]
    · rw [pieces_intercalate hsep none fun part mem => (plain part mem).2]
      symm
      apply List.filter_eq_self.mpr
      intro part mem
      exact decide_eq_true (plain part mem).1
  rw [read parts fun part mem => plain part (List.mem_append_left others mem), same]
  exact (read others fun part mem => plain part (List.mem_append_right parts mem)).symm

/-- The characters of joined texts are those of the texts, and separators. -/
theorem of_mem_intercalate {c : Char} (h : c ∈ [sep].intercalate parts) :
    c = sep ∨ ∃ part ∈ parts, c ∈ part := by
  induction parts with
  | nil => cases h
  | cons part parts ih =>
    cases parts with
    | nil =>
      rw [List.intercalate_singleton] at h
      exact Or.inr ⟨part, List.mem_cons_self, h⟩
    | cons next parts =>
      rw [List.intercalate_cons_cons, List.append_assoc, List.singleton_append] at h
      rcases List.mem_append.mp h with h | h
      · exact Or.inr ⟨part, List.mem_cons_self, h⟩
      · rcases List.mem_cons.mp h with rfl | h
        · exact Or.inl rfl
        · rcases ih h with same | ⟨later, mem, h⟩
          · exact Or.inl same
          · exact Or.inr ⟨later, List.mem_cons_of_mem part mem, h⟩

/-- Characters that do not separate belong to the first piece. -/
theorem pieces_append_of_forall {start : List Char} (h : ∀ c ∈ start, p c = false) {rest : List Char}
    {piece : List Char} {more : List (List Char)} (cut : pieces p rest = piece :: more) :
    pieces p (start ++ rest) = (start ++ piece) :: more := by
  induction start with
  | nil => exact cut
  | cons c start ih =>
    obtain ⟨first, others, same, here⟩ :=
      pieces_cons_of_neg (h c List.mem_cons_self) (start ++ rest)
    rw [ih fun d hd => h d (List.mem_cons_of_mem c hd)] at same
    cases same
    exact here

/-- It does not matter whether a text is cut before or after its characters are replaced, if
separators stay and no others are made. -/
theorem pieces_flatMap {f : Char → List Char} (stays : ∀ c, p c = true → f c = [c])
    (plain : ∀ c, p c = false → ∀ d ∈ f c, p d = false) (cs : List Char) :
    pieces p (cs.flatMap f) = (pieces p cs).map (List.flatMap f) := by
  induction cs with
  | nil => rfl
  | cons c cs ih =>
    rw [List.flatMap_cons]
    cases here : p c with
    | true =>
      rw [stays c here, List.singleton_append, pieces_cons_of_pos here, pieces_cons_of_pos here, ih]
      rfl
    | false =>
      obtain ⟨piece, more, same, cut⟩ := pieces_cons_of_neg here cs
      rw [same, List.map_cons] at ih
      rw [cut, pieces_append_of_forall (plain c here) ih, List.map_cons, List.flatMap_cons]

/-! ### Characters -/

/-- What holds of each character of a text can be computed. -/
theorem forall_mem {P : Char → Prop} [DecidablePred P] (h : cs.all (P ·) = true) :
    ∀ c ∈ cs, P c := fun c hc => of_decide_eq_true (List.all_eq_true.mp h c hc)

/-! ### Splitting once -/

/-- The first separator is not in a text without separators. -/
theorem splitOnce?_append (h : sep ∉ cs) (rest : List Char) :
    splitOnce? sep (cs ++ rest) = (splitOnce? sep rest).map fun (a, b) => (cs ++ a, b) := by
  have plain : ∀ c ∈ cs, (c != sep) = true := by
    intro c hc
    rw [bne_iff_ne]
    rintro rfl
    exact h hc
  unfold splitOnce?
  rw [List.dropWhile_append_of_pos plain, List.takeWhile_append_of_pos plain]
  cases rest.dropWhile (· != sep) <;> rfl

theorem splitOnce?_cons_self (rest : List Char) : splitOnce? sep (sep :: rest) = some ([], rest) := by
  simp [splitOnce?]

theorem splitOnce?_eq_none_iff : splitOnce? sep cs = none ↔ sep ∉ cs := by
  unfold splitOnce?
  constructor
  · intro h hc
    split at h
    · next hd => simpa using List.dropWhile_eq_nil_iff.mp hd sep hc
    · cases h
  · intro h
    have hd : cs.dropWhile (· != sep) = [] := by
      rw [List.dropWhile_eq_nil_iff]
      intro c hc
      rw [bne_iff_ne]
      rintro rfl
      exact h hc
    rw [hd]

/-- The text is what stands before the separator, the separator, and what stands after it. -/
theorem eq_of_splitOnce? {both : List Char × List Char} (h : splitOnce? sep cs = some both) :
    cs = both.1 ++ sep :: both.2 := by
  unfold splitOnce? at h
  split at h
  · cases h
  · next c after hd =>
    cases h
    have hne : cs.dropWhile (· != sep) ≠ [] := by simp [hd]
    have hc := List.head_dropWhile_not (· != sep) hne
    simp only [hd, List.head_cons, bne_eq_false_iff_eq] at hc
    rw [← hc]
    have := List.takeWhile_append_dropWhile (p := (· != c)) (l := cs)
    rw [hc] at this ⊢
    rw [hd, hc] at this
    exact this.symm

theorem notMem_of_splitOnce? {both : List Char × List Char}
    (h : splitOnce? sep cs = some both) : sep ∉ both.1 := by
  unfold splitOnce? at h
  split at h
  · cases h
  · cases h
    intro hc
    simpa using List.mem_takeWhile_imp hc

theorem subset_of_splitOnce? {both : List Char × List Char}
    (h : splitOnce? sep cs = some both) : both.1 ⊆ cs ∧ both.2 ⊆ cs := by
  rw [eq_of_splitOnce? h]
  constructor
  · exact List.subset_append_left _ _
  · exact fun c hc => List.mem_append_right _ (List.mem_cons_of_mem _ hc)

/-! ### Both ends of a text -/

/-- What is stripped from the end of a text ends at the latest where a character stays. -/
theorem reverse_dropWhile_append {c : Char} (hc : p c = false) (rest : List Char) :
    ((cs ++ c :: rest).reverse.dropWhile p).reverse = cs ++ c :: (rest.reverse.dropWhile p).reverse := by
  rw [List.reverse_append, List.reverse_cons, List.append_assoc, List.dropWhile_append]
  split
  · next none =>
    rw [List.isEmpty_iff] at none
    rw [none, List.singleton_append, List.dropWhile_cons_of_neg (by simp [hc])]
    simp
  · simp [List.append_assoc]

theorem length_trim_le (s : String) : (trim s).length ≤ s.length := by
  have strip (p : Char → Bool) (cs : List Char) : (stripChars p cs).length ≤ cs.length := by
    rw [stripChars, List.length_reverse]
    calc ((cs.dropWhile p).reverse.dropWhile p).length
        ≤ (cs.dropWhile p).reverse.length := (List.dropWhile_sublist p).length_le
      _ = (cs.dropWhile p).length := List.length_reverse
      _ ≤ cs.length := (List.dropWhile_sublist p).length_le
  rw [trim, String.length_ofList]
  exact Nat.le_trans (strip isSpace s.toList) (Nat.le_of_eq String.length_toList)

end ToolGateway.Text
