import Mathlib.Data.List.Chain
import Mathlib.Data.List.Induction
import ToolGateway.Operation.Naming
import ToolGateway.Proofs.Text.Letters

/-!
# The shape of a name

A sanitized name is tidy (`Tidy`): underscores only stand alone between other characters, and
without them the name is what the letters and digits of the identifier are in lowercase. To sanitize
a tidy name changes nothing, as long as its characters are letters and digits in lowercase. The
lowercase forms of letters are such characters, with one exception: a capital I with a dot above
leaves a combining dot behind, which the next run takes for a separator (`sanitize_sanitize_iff`).

`name_shape` says of any way of naming what a name and a failure look like.
-/

namespace ToolGateway.Naming

open Unicode (isAlphanumeric lowercase)

/-- Underscores neither start the name nor follow one another. -/
structure Spaced (name : List Char) : Prop where
  first : name.head? ≠ some '_'
  alone : name.IsChain fun c d => c = '_' → d ≠ '_'

/-- Underscores stand alone between other characters. -/
structure Tidy (name : List Char) : Prop extends Spaced name where
  last : name.getLast? ≠ some '_'

/-! ### Spaced names -/

section

variable {name word : List Char}

theorem Spaced.before (h : Spaced (name ++ word)) : Spaced name where
  first := by
    intro starts
    apply h.first
    rw [List.head?_append, starts]
    rfl
  alone := h.alone.left_of_append

theorem Spaced.append_word (h : Spaced name) (plain : '_' ∉ word) : Spaced (name ++ word) := by
  have other : ∀ d ∈ word, d ≠ '_' := by
    rintro d hd rfl
    exact plain hd
  constructor
  · intro starts
    cases name with
    | nil => exact other _ (List.mem_of_head? starts) rfl
    | cons c rest => exact h.first starts
  · apply List.isChain_append.mpr
    refine ⟨h.alone, ?_, fun c _ d hd _ => other d (List.mem_of_head? hd)⟩
    apply List.Pairwise.isChain
    apply List.pairwise_of_forall_mem_list
    intro c _ d hd _
    exact other d hd

/-- An underscore can follow where there is a character that is none. -/
theorem spaced_concat_iff : Spaced (name ++ ['_']) ↔
    Spaced name ∧ name ≠ [] ∧ name.getLast? ≠ some '_' := by
  constructor
  · intro h
    refine ⟨h.before, ?_, ?_⟩
    · rintro rfl
      exact h.first rfl
    · intro ends
      obtain ⟨-, -, between⟩ := List.isChain_append.mp h.alone
      exact between _ ends _ rfl rfl rfl
  · rintro ⟨h, some, other⟩
    constructor
    · rw [List.head?_append_of_ne_nil _ some]
      exact h.first
    · apply List.isChain_append.mpr
      refine ⟨h.alone, .singleton _, ?_⟩
      rintro c ends d - rfl
      exact absurd ends other

end

/-! ### The loop -/

/-- What the loop has written after some characters. -/
def written (cs : List Char) : List Char := (cs.foldl sanitizeStep []).reverse

variable {cs name : List Char} {c : Char}

theorem written_concat_of_letter (letter : isAlphanumeric c = true) :
    written (cs ++ [c]) = written cs ++ lowercase c := by
  simp [written, List.foldl_append, sanitizeStep, letter]

/-- A separator is written where it neither starts the name nor follows another one. -/
theorem written_concat_of_separator (separator : isAlphanumeric c = false) :
    written (cs ++ [c]) =
      if written cs = [] ∨ (written cs).getLast? = some '_' then written cs
      else written cs ++ ['_'] := by
  simp only [written, List.foldl_append, List.foldl_cons, List.foldl_nil, sanitizeStep, separator,
    Bool.false_eq_true, if_false, List.reverse_eq_nil_iff, List.getLast?_reverse]
  split
  · next out => simp [out]
  · next out => simp [out]
  · next out none other =>
    have plain : (cs.foldl sanitizeStep []).head? ≠ some '_' := by
      intro starts
      obtain ⟨rest, same⟩ := List.head?_eq_some_iff.mp starts
      exact other rest same
    rw [if_neg (not_or.mpr ⟨none, plain⟩), List.reverse_cons]

theorem underscore_notMem_lowercase (letter : isAlphanumeric c = true) : '_' ∉ lowercase c := by
  intro h
  by_cases dotted : c = 'İ'
  · subst dotted
    rw [Unicode.lowercase_dotted] at h
    exact absurd h (by decide)
  · have := Unicode.isAlphanumeric_of_mem_lowercase letter dotted h
    rw [Unicode.not_isAlphanumeric_underscore] at this
    cases this

theorem spaced_written (cs : List Char) : Spaced (written cs) := by
  induction cs using List.reverseRecOn with
  | nil => exact ⟨nofun, .nil⟩
  | append_singleton cs c ih =>
    by_cases letter : isAlphanumeric c = true
    · rw [written_concat_of_letter letter]
      exact ih.append_word (underscore_notMem_lowercase letter)
    · rw [written_concat_of_separator (Bool.eq_false_iff.mpr letter)]
      split
      · exact ih
      · next later => exact spaced_concat_iff.mpr ⟨ih, not_or.mp later⟩

/-- Without underscores, the loop has written the letters and digits in lowercase. -/
theorem filter_written (cs : List Char) :
    (written cs).filter (· ≠ '_') = (cs.filter isAlphanumeric).flatMap lowercase := by
  induction cs using List.reverseRecOn with
  | nil => rfl
  | append_singleton cs c ih =>
    by_cases letter : isAlphanumeric c = true
    · have plain : (lowercase c).filter (· ≠ '_') = lowercase c := by
        apply List.filter_eq_self.mpr
        intro d hd
        apply decide_eq_true
        rintro rfl
        exact underscore_notMem_lowercase letter hd
      rw [written_concat_of_letter letter, List.filter_append, ih, plain, List.filter_append,
        List.flatMap_append, List.filter_cons_of_pos letter, List.filter_nil, List.flatMap_singleton]
    · have none : [c].filter isAlphanumeric = [] := List.filter_cons_of_neg letter
      rw [written_concat_of_separator (Bool.eq_false_iff.mpr letter), List.filter_append, none,
        List.append_nil, ← ih]
      split
      · rfl
      · rw [List.filter_append]
        exact List.append_nil _

/-! ### Sanitized names -/

/-- A name is what the loop has written, but for one underscore at the end. -/
theorem written_eq_sanitizeChars (cs : List Char) :
    (written cs = sanitizeChars cs ∧ (written cs).getLast? ≠ some '_') ∨
      written cs = sanitizeChars cs ++ ['_'] := by
  unfold written sanitizeChars
  split
  · next out h =>
    rw [h, List.reverse_cons]
    exact Or.inr rfl
  · next other =>
    refine Or.inl ⟨rfl, fun ends => ?_⟩
    rw [List.getLast?_reverse] at ends
    obtain ⟨rest, same⟩ := List.head?_eq_some_iff.mp ends
    exact other rest same

theorem tidy_sanitizeChars (cs : List Char) : Tidy (sanitizeChars cs) := by
  have spaced := spaced_written cs
  rcases written_eq_sanitizeChars cs with ⟨same, last⟩ | cut
  · rw [same] at spaced last
    exact ⟨spaced, last⟩
  · rw [cut] at spaced
    obtain ⟨before, -, last⟩ := spaced_concat_iff.mp spaced
    exact ⟨before, last⟩

theorem filter_sanitizeChars (cs : List Char) :
    (sanitizeChars cs).filter (· ≠ '_') = (cs.filter isAlphanumeric).flatMap lowercase := by
  rw [← filter_written cs]
  rcases written_eq_sanitizeChars cs with ⟨same, -⟩ | cut
  · rw [same]
  · rw [cut, List.filter_append]
    exact (List.append_nil _).symm

theorem mem_sanitizeChars {d : Char} (other : d ≠ '_') :
    d ∈ sanitizeChars cs ↔ ∃ c ∈ cs, isAlphanumeric c = true ∧ d ∈ lowercase c := by
  have kept : d ∈ sanitizeChars cs ↔ d ∈ (sanitizeChars cs).filter (· ≠ '_') := by
    simp [other]
  rw [kept, filter_sanitizeChars]
  simp [and_assoc]

/-- Nothing is left exactly when there is no letter and no digit. -/
theorem sanitizeChars_eq_nil_iff :
    sanitizeChars cs = [] ↔ ∀ c ∈ cs, isAlphanumeric c = false := by
  constructor
  · intro none c hc
    rw [Bool.eq_false_iff]
    intro letter
    obtain ⟨d, rest, form⟩ := List.exists_cons_of_ne_nil (Unicode.lowercase_ne_nil c)
    have hd : d ∈ lowercase c := form ▸ List.mem_cons_self
    have other : d ≠ '_' := by
      rintro rfl
      exact underscore_notMem_lowercase letter hd
    have written := (mem_sanitizeChars other).mpr ⟨c, hc, letter, hd⟩
    rw [none] at written
    cases written
  · intro separators
    have only : ∀ d ∈ sanitizeChars cs, d = '_' := by
      intro d hd
      by_contra other
      obtain ⟨c, hc, letter, -⟩ := (mem_sanitizeChars other).mp hd
      rw [separators c hc] at letter
      cases letter
    cases h : sanitizeChars cs with
    | nil => rfl
    | cons d rest =>
      have tidy := (tidy_sanitizeChars cs).first
      rw [h] at only tidy
      exact absurd (congrArg some (only d List.mem_cons_self)) tidy

/-! ### Sanitizing again -/

/-- A character that a sanitized name keeps: an underscore, or a letter or digit in lowercase. -/
def Plain (c : Char) : Prop := c = '_' ∨ (isAlphanumeric c = true ∧ lowercase c = [c])

/-- The loop writes plain characters as they are, where underscores are spaced. -/
theorem written_of_plain (plain : ∀ c ∈ cs, Plain c) (spaced : Spaced cs) : written cs = cs := by
  induction cs using List.reverseRecOn with
  | nil => rfl
  | append_singleton cs c ih =>
    obtain ⟨before, here⟩ := List.forall_mem_append.mp plain
    have same := ih before spaced.before
    rcases here c List.mem_cons_self with rfl | ⟨letter, form⟩
    · have later := not_or.mpr (spaced_concat_iff.mp spaced).2
      rw [written_concat_of_separator Unicode.not_isAlphanumeric_underscore, same, if_neg later]
    · rw [written_concat_of_letter letter, same, form]

/-- A tidy name of plain characters stays as it is. -/
theorem sanitizeChars_of_tidy (tidy : Tidy name) (plain : ∀ c ∈ name, Plain c) :
    sanitizeChars name = name := by
  have same := written_of_plain plain tidy.toSpaced
  rcases written_eq_sanitizeChars name with ⟨rest, -⟩ | cut
  · exact rest.symm.trans same
  · have ends : name.getLast? = some '_' := by
      rw [← same, cut, List.getLast?_concat]
    exact absurd ends tidy.last

/-- What a sanitized name holds has no other lowercase form. -/
theorem lowercase_of_mem_sanitizeChars {d : Char} (h : d ∈ sanitizeChars cs) :
    lowercase d = [d] := by
  by_cases other : d = '_'
  · subst other
    decide
  · obtain ⟨c, -, -, hd⟩ := (mem_sanitizeChars other).mp h
    exact Unicode.lowercase_of_mem_lowercase hd

theorem dotted_not_mem_sanitizeChars (cs : List Char) : 'İ' ∉ sanitizeChars cs := by
  intro h
  have := lowercase_of_mem_sanitizeChars h
  rw [Unicode.lowercase_dotted] at this
  cases this

theorem plain_of_mem_sanitizeChars (undotted : 'İ' ∉ cs) {d : Char}
    (h : d ∈ sanitizeChars cs) : Plain d := by
  by_cases other : d = '_'
  · exact Or.inl other
  · obtain ⟨c, hc, letter, hd⟩ := (mem_sanitizeChars other).mp h
    have ne : c ≠ 'İ' := fun dotted => undotted (dotted ▸ hc)
    exact Or.inr ⟨Unicode.isAlphanumeric_of_mem_lowercase letter ne hd,
      Unicode.lowercase_of_mem_lowercase hd⟩

theorem sanitizeChars_sanitizeChars (undotted : 'İ' ∉ cs) :
    sanitizeChars (sanitizeChars cs) = sanitizeChars cs :=
  sanitizeChars_of_tidy (tidy_sanitizeChars cs) fun _ => plain_of_mem_sanitizeChars undotted

/-- A capital I with a dot above leaves a combining dot, and the next run takes it out. -/
theorem sanitizeChars_ne_of_dotted (dotted : 'İ' ∈ cs) :
    sanitizeChars (sanitizeChars cs) ≠ sanitizeChars cs := by
  intro same
  -- The first run leaves the combining dot. In a second one a letter would have to have it as its
  -- lowercase form, and a letter that is left has no other form than itself.
  have other : Char.ofNat 0x307 ≠ '_' := by decide
  have left : Char.ofNat 0x307 ∈ sanitizeChars cs := by
    refine (mem_sanitizeChars other).mpr ⟨'İ', dotted, by decide +kernel, ?_⟩
    rw [Unicode.lowercase_dotted]
    exact List.mem_cons_of_mem _ List.mem_cons_self
  rw [← same] at left
  obtain ⟨c, hc, letter, hd⟩ := (mem_sanitizeChars other).mp left
  rw [lowercase_of_mem_sanitizeChars hc] at hd
  rw [← List.mem_singleton.mp hd, Unicode.not_isAlphanumeric_dot] at letter
  cases letter

theorem sanitize_sanitize (s : String) :
    sanitize (sanitize s) = String.ofList (sanitizeChars (sanitizeChars s.toList)) := by
  rw [sanitize, sanitize, String.toList_ofList]

/-- To sanitize a text twice is to sanitize it once exactly when no capital I with a dot above is in
it. After two runs it stays the same. -/
theorem sanitize_sanitize_iff (s : String) :
    (sanitize (sanitize s) = sanitize s ↔ 'İ' ∉ s.toList) ∧
      sanitize (sanitize (sanitize s)) = sanitize (sanitize s) := by
  refine ⟨⟨fun same dotted => ?_, fun undotted => ?_⟩, ?_⟩
  · rw [sanitize_sanitize, sanitize] at same
    exact sanitizeChars_ne_of_dotted dotted (String.ofList_injective same)
  · rw [sanitize_sanitize, sanitizeChars_sanitizeChars undotted, sanitize]
  · rw [sanitize_sanitize (sanitize s), sanitize_sanitize, sanitize, String.toList_ofList,
      sanitizeChars_sanitizeChars (dotted_not_mem_sanitizeChars s.toList)]

theorem sanitize_dotted_twice : sanitize (sanitize "İ") ≠ sanitize "İ" := by
  decide +kernel

/-! ### Names and failures -/

variable {op : Operation} {id full : String}

theorem fullName_of_no_id (h : op.id? = none) :
    fullName .sanitizedId op = .error .noId ∧ fullName .operationId op = .error .noId := by
  unfold fullName
  rw [h]
  exact ⟨rfl, rfl⟩

theorem fullName_sanitizedId_of_id (h : op.id? = some id) : fullName .sanitizedId op =
    if (sanitize id).isEmpty then .error (.nothingLeft id) else .ok (sanitize id) := by
  unfold fullName
  rw [h]

theorem fullName_operationId_of_id (h : op.id? = some id) : fullName .operationId op =
    if Text.isBlank id then .error .blankId else .ok id := by
  unfold fullName
  rw [h]

theorem sanitize_isEmpty_iff :
    (sanitize id).isEmpty = true ↔ ∀ c ∈ id.toList, isAlphanumeric c = false := by
  rw [String.isEmpty_iff, ← String.toList_eq_nil_iff, sanitize, String.toList_ofList]
  exact sanitizeChars_eq_nil_iff

/-- A sanitized name comes from an identifier. -/
theorem exists_id_of_sanitizedId (h : fullName .sanitizedId op = .ok full) :
    ∃ id, op.id? = some id ∧ full.toList = sanitizeChars id.toList := by
  cases hid : op.id? with
  | none =>
    rw [(fullName_of_no_id hid).1] at h
    cases h
  | some id =>
    rw [fullName_sanitizedId_of_id hid] at h
    split at h
    · cases h
    · cases h
      exact ⟨id, rfl, String.toList_ofList⟩

/-- Sanitizing fails without an identifier, and where it has no letter and no digit. -/
theorem fullName_sanitizedId_eq_error_iff {fault : NamingFault} :
    fullName .sanitizedId op = .error fault ↔
      (op.id? = none ∧ fault = .noId) ∨
        ∃ id, op.id? = some id ∧ (∀ c ∈ id.toList, isAlphanumeric c = false) ∧
          fault = .nothingLeft id := by
  cases hid : op.id? with
  | none =>
    rw [(fullName_of_no_id hid).1]
    constructor
    · rintro ⟨⟩
      exact Or.inl ⟨rfl, rfl⟩
    · rintro (⟨-, rfl⟩ | ⟨_, ⟨⟩, -⟩)
      rfl
  | some id =>
    rw [fullName_sanitizedId_of_id hid]
    by_cases none : (sanitize id).isEmpty = true
    · have separators := sanitize_isEmpty_iff.mp none
      rw [if_pos none]
      constructor
      · rintro ⟨⟩
        exact Or.inr ⟨id, rfl, separators, rfl⟩
      · rintro (⟨⟨⟩, -⟩ | ⟨_, ⟨⟩, -, rfl⟩)
        rfl
    · rw [if_neg none]
      constructor
      · rintro ⟨⟩
      · rintro (⟨⟨⟩, -⟩ | ⟨_, ⟨⟩, separators, -⟩)
        exact absurd (sanitize_isEmpty_iff.mpr separators) none

/-- No name is empty before it is cut. -/
theorem fullName_ne_empty {source : NameSource} (h : fullName source op = .ok full) :
    full ≠ "" := by
  rintro rfl
  cases source with
  | endpoint => simp [fullName, endpoint] at h
  | operationId =>
    cases hid : op.id? with
    | none =>
      rw [(fullName_of_no_id hid).2] at h
      cases h
    | some id =>
      rw [fullName_operationId_of_id hid] at h
      split at h
      · cases h
      · next solid =>
        cases h
        exact solid (by decide)
  | sanitizedId =>
    cases hid : op.id? with
    | none =>
      rw [(fullName_of_no_id hid).1] at h
      cases h
    | some id =>
      rw [fullName_sanitizedId_of_id hid] at h
      split at h
      · cases h
      · next solid =>
        rw [Except.ok.inj h] at solid
        exact solid (by decide)

/-- A name is the full one, cut to the greatest length if there is one. -/
theorem name_eq_ok_iff {n : Naming} {name : String} : n.name op = .ok name ↔
    ∃ full, fullName n.source op = .ok full ∧
      name = match n.maxLength with
        | none => full
        | some k => String.ofList (full.toList.take k) := by
  unfold Naming.name
  cases fullName n.source op with
  | error fault => simp
  | ok full => cases n.maxLength <;> simp [eq_comm]

theorem name_eq_error_iff {n : Naming} {fault : NamingFault} :
    n.name op = .error fault ↔ fullName n.source op = .error fault := by
  unfold Naming.name
  cases fullName n.source op with
  | error other => simp
  | ok full => cases n.maxLength <;> simp

theorem check_eq_ok_iff {n : Naming} : n.check = .ok n ↔ n.maxLength ≠ some 0 := by
  unfold check
  split <;> simp_all

/-- What is left of a text that is cut to a length. -/
theorem cut_shape (full : String) (k : Nat) :
    (String.ofList (full.toList.take k)).length ≤ k ∧
      (String.ofList (full.toList.take k)).toList <+: full.toList ∧
        (full.length ≤ k → String.ofList (full.toList.take k) = full) := by
  refine ⟨?_, ?_, fun short => ?_⟩
  · rw [String.length_ofList, List.length_take]
    exact Nat.min_le_left _ _
  · rw [String.toList_ofList]
    exact List.take_prefix _ _
  · rw [List.take_of_length_le (by rw [String.length_toList]; exact short), String.ofList_toList]

/-- The shape of names. A name is never empty: it is the full name, or a prefix of it of at most the
greatest length, and the whole of it where that is short enough. A full name that was sanitized is
tidy, and without underscores it is what the letters and digits of the identifier are in lowercase.
Sanitizing fails where there is no identifier, and where it has no letter and no digit; names fail
as full names do. -/
theorem name_shape {n : Naming} (accepted : n.check = .ok n) (op : Operation) :
    (∀ name, n.name op = .ok name → name ≠ "" ∧
      ∃ full, fullName n.source op = .ok full ∧ (n.maxLength = none → name = full) ∧
        ∀ k, n.maxLength = some k →
          name.length ≤ k ∧ name.toList <+: full.toList ∧ (full.length ≤ k → name = full)) ∧
    (∀ full, fullName .sanitizedId op = .ok full → Tidy full.toList ∧
      ∃ id, op.id? = some id ∧
        full.toList.filter (· ≠ '_') = (id.toList.filter isAlphanumeric).flatMap lowercase) ∧
    (∀ fault, fullName .sanitizedId op = .error fault ↔
      (op.id? = none ∧ fault = .noId) ∨
        ∃ id, op.id? = some id ∧ (∀ c ∈ id.toList, isAlphanumeric c = false) ∧
          fault = .nothingLeft id) ∧
    ∀ fault, n.name op = .error fault ↔ fullName n.source op = .error fault := by
  refine ⟨fun name h => ?_, fun full h => ?_, fun _ => fullName_sanitizedId_eq_error_iff,
    fun _ => name_eq_error_iff⟩
  · obtain ⟨full, made, same⟩ := name_eq_ok_iff.mp h
    have solid := fullName_ne_empty made
    cases cut : n.maxLength with
    | none =>
      rw [cut] at same
      subst same
      exact ⟨solid, name, made, fun _ => rfl, nofun⟩
    | some k =>
      rw [cut] at same
      subst same
      have room : k ≠ 0 := by
        rintro rfl
        exact check_eq_ok_iff.mp accepted cut
      refine ⟨?_, full, made, nofun, ?_⟩
      · rw [Ne, ← String.toList_eq_nil_iff, String.toList_ofList, List.take_eq_nil_iff,
          String.toList_eq_nil_iff]
        exact not_or.mpr ⟨room, solid⟩
      · rintro _ ⟨⟩
        exact cut_shape full k
  · obtain ⟨id, found, same⟩ := exists_id_of_sanitizedId h
    rw [same]
    exact ⟨tidy_sanitizeChars _, id, found, filter_sanitizeChars _⟩

/-- An operation with an identifier that has more separators than a name keeps. -/
def getUser : Operation :=
  ⟨"/users", "GET", .object [("operationId", .str "__Get--User!")], [], ⟨.object []⟩⟩

/-- At most four characters of a sanitized name. -/
def four : Naming := ⟨.sanitizedId, some 4⟩

theorem name_shape_getUser :
    four.check = .ok four ∧ four.name getUser = .ok "get_" ∧
      fullName .sanitizedId getUser = .ok "get_user" ∧ Tidy "get_user".toList ∧
      ∃ full, fullName .sanitizedId getUser = .ok full ∧ "get_".toList <+: full.toList := by
  have accepted : four.check = .ok four := rfl
  have short : four.name getUser = .ok "get_" := by decide +kernel
  have made : fullName .sanitizedId getUser = .ok "get_user" := by decide +kernel
  obtain ⟨names, fulls, -, -⟩ := name_shape accepted getUser
  obtain ⟨-, full, same, -, cut⟩ := names "get_" short
  exact ⟨accepted, short, made, (fulls "get_user" made).1, full, same, (cut 4 rfl).2.1⟩

end ToolGateway.Naming
