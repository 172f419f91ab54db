import ToolGateway.Proofs.Source

/-!
# Spellings of a path

Texts that differ in superfluous slashes and dots only are spellings of the same path (`SamePath`):
both or neither start at the root, and the same names count in them. Their parents are spellings of
the same path, too, and joined with a path they lead to the same place or both nowhere
(`follow_joinPath`). So what a relative reference names does not depend on how the path of its
document is spelled (`SamePath.canonical_joinPath`), and neither does what is read, for spellings
that can be read (`SamePath.follow_eq`).
-/

namespace ToolGateway

/-- A text that is cut at a separator is cut before it and after it. -/
theorem Text.pieces_append_sep {p : Char → Bool} {sep : Char} (hsep : p sep = true)
    (cs rest : List Char) : pieces p (cs ++ sep :: rest) = pieces p cs ++ pieces p rest := by
  induction cs with
  | nil => exact pieces_cons_of_pos hsep
  | cons c cs ih =>
    rw [List.cons_append]
    cases hc : p c with
    | true => rw [pieces_cons_of_pos hc, pieces_cons_of_pos hc, ih, List.cons_append]
    | false =>
      obtain ⟨piece, more, same, cut⟩ := pieces_cons_of_neg hc cs
      obtain ⟨piece', more', same', cut'⟩ := pieces_cons_of_neg hc (cs ++ sep :: rest)
      rw [ih, same, List.cons_append] at same'
      cases same'
      rw [cut, cut', List.cons_append]

namespace Files

theorem names_ne_nil (path : String) : names path ≠ [] := by
  rw [names, Text.splitOn, ne_eq, List.map_eq_nil_iff]
  exact Text.pieces_ne_nil _ _

theorem names_append_slash (p q : String) : names (p ++ "/" ++ q) = names p ++ names q := by
  have cut : (p ++ "/" ++ q).toList = p.toList ++ '/' :: q.toList := by
    rw [String.toList_append, String.toList_append, List.append_assoc]
    rfl
  rw [names, names, names, Text.splitOn, cut, Text.pieces_append_sep (by decide), List.map_append]
  rfl

theorem names_of_notMem {path : String} (h : '/' ∉ path.toList) : names path = [path] := by
  have whole : ∀ c ∈ path.toList, (c == '/') = false := by
    intro c hc
    rw [beq_eq_false_iff_ne]
    rintro rfl
    exact h hc
  rw [names, Text.splitOn, Text.pieces_of_forall whole, List.map_singleton, String.ofList_toList]

end Files

namespace Source

open Files

/-- A name that leads from a place to another one. -/
def counts (name : String) : Bool := !name.isEmpty && name != "."

variable {p q path : String}

/-! ### Names that count -/

theorem significant_eq {first : String} {rest : List String} (h : names path = first :: rest) :
    significant path = (if first.isEmpty then [] else [first]) ++ rest.filter counts := by
  rw [significant, h]
  rfl

theorem significant_append_slash (p q : String) :
    significant (p ++ "/" ++ q) = significant p ++ (names q).filter counts := by
  cases h : names p with
  | nil => exact absurd h (names_ne_nil p)
  | cons first rest =>
    have whole : names (p ++ "/" ++ q) = first :: (rest ++ names q) := by
      rw [names_append_slash, h, List.cons_append]
    rw [significant_eq whole, significant_eq h, List.filter_append, List.append_assoc]

theorem filter_names (path : String) :
    (names path).filter counts = (significant path).filter counts := by
  cases h : names path with
  | nil => exact absurd h (names_ne_nil path)
  | cons first rest =>
    rw [significant_eq h, List.filter_append, List.filter_filter]
    have first_counts : ([first] : List String).filter counts =
        (if first.isEmpty then [] else [first] : List String).filter counts := by
      split
      · next none =>
        rw [List.filter_singleton, counts, none]
        rfl
      · rfl
    rw [← first_counts, ← List.singleton_append, List.filter_append]
    simp

theorem isAbsolute_append_slash (p q : String) :
    isAbsolute (p ++ "/" ++ q) = (p.isEmpty || isAbsolute p) := by
  cases h : p.toList with
  | nil =>
    have none : p = "" := String.toList_inj.mp h
    subst none
    simp [isAbsolute, Text.startsWith, String.toList_append]
  | cons c cs =>
    have filled : p.isEmpty = false := by
      rw [← Bool.not_eq_true, String.isEmpty_iff]
      rintro rfl
      cases h
    rw [filled, isAbsolute, isAbsolute, Text.startsWith, Text.startsWith, String.toList_append,
      String.toList_append, h]
    simp [List.isPrefixOf]

/-- Two spellings of one path. -/
def SamePath (p q : String) : Prop := isAbsolute p = isAbsolute q ∧ significant p = significant q

namespace SamePath

theorem refl (p : String) : SamePath p p := ⟨rfl, rfl⟩

theorem symm (h : SamePath p q) : SamePath q p := ⟨h.1.symm, h.2.symm⟩

theorem trans {r : String} (h : SamePath p q) (h' : SamePath q r) : SamePath p r :=
  ⟨h.1.trans h'.1, h.2.trans h'.2⟩

theorem plainPath_eq (h : SamePath p q) : plainPath p = plainPath q := by
  rw [plainPath, plainPath, h.1, h.2]

end SamePath

theorem counts_iff {name : String} : counts name = true ↔ name ≠ "" ∧ name ≠ "." := by
  rw [counts, Bool.and_eq_true, Bool.not_eq_true', ← Bool.not_eq_true, String.isEmpty_iff,
    bne_iff_ne]

theorem isAbsolute_iff : isAbsolute path = true ↔ ∃ rest, path = "" ++ "/" ++ rest := by
  rw [isAbsolute, Text.startsWith]
  constructor
  · intro h
    cases cut : path.toList with
    | nil =>
      rw [cut] at h
      cases h
    | cons c cs =>
      rw [cut] at h
      have slash : '/' = c := by simpa [List.isPrefixOf] using h
      refine ⟨String.ofList cs, String.toList_inj.mp ?_⟩
      rw [cut, ← slash, String.toList_append, String.toList_ofList]
      rfl
  · rintro ⟨rest, rfl⟩
    rw [String.toList_append]
    rfl

/-- The first name of a path is empty just when the path is, or starts at the root. -/
theorem isEmpty_first {first : String} {rest : List String} (h : names path = first :: rest) :
    first = "" ↔ path = "" ∨ isAbsolute path = true := by
  cases cut : path.toList with
  | nil =>
    have none : path = "" := String.toList_inj.mp cut
    rw [none] at h ⊢
    simp only [true_or, iff_true]
    exact (List.cons.inj h).1.symm
  | cons c cs =>
    have filled : path ≠ "" := by
      rintro rfl
      cases cut
    by_cases slash : c = '/'
    · have absolute : isAbsolute path = true := by
        rw [isAbsolute, Text.startsWith, cut, slash]
        rfl
      obtain ⟨q, rfl⟩ := isAbsolute_iff.mp absolute
      rw [names_append_slash] at h
      simp only [absolute, or_true, iff_true]
      exact (List.cons.inj h).1.symm
    · have relative : ¬isAbsolute path = true := by
        intro h
        rw [isAbsolute, Text.startsWith, cut] at h
        have : '/' = c := by simpa [List.isPrefixOf] using h
        exact slash this.symm
      obtain ⟨piece, more, -, whole⟩ :=
        Text.pieces_cons_of_neg (p := (· == '/')) (c := c) (by simpa using slash) cs
      rw [names, Text.splitOn, cut, whole] at h
      have first_eq : first = String.ofList (c :: piece) := (List.cons.inj h).1.symm
      simp only [filled, relative, false_or, Bool.false_eq_true, iff_false, first_eq]
      intro none
      have := congrArg String.toList none
      rw [String.toList_ofList] at this
      cases this

/-- Only the empty path neither starts at the root nor has a name that counts. -/
theorem eq_empty_iff : path = "" ↔ isAbsolute path = false ∧ significant path = [] := by
  constructor
  · rintro rfl
    decide
  · rintro ⟨relative, none⟩
    cases h : names path with
    | nil => exact absurd h (names_ne_nil path)
    | cons first rest =>
      rw [significant_eq h] at none
      have empty : first = "" := by
        by_contra filled
        have shown : first.isEmpty = false := by
          rw [← Bool.not_eq_true, String.isEmpty_iff]
          exact filled
        rw [shown] at none
        cases none
      rcases (isEmpty_first h).mp empty with same | absolute
      · exact same
      · rw [relative] at absolute
        cases absolute

theorem forall_mem_significant {name : String} (h : name ∈ significant path) :
    name ≠ "" ∧ '/' ∉ name.toList := by
  refine ⟨?_, ?_⟩
  · unfold significant at h
    split at h
    · rcases List.mem_append.mp h with h | h
      · split at h
        · cases h
        · next filled =>
          rw [List.mem_singleton.mp h]
          rintro rfl
          exact filled rfl
      · have := (List.mem_filter.mp h).2
        exact (counts_iff.mp this).1
    · cases h
  · obtain ⟨piece, mem, rfl⟩ := List.mem_map.mp (significant_subset h)
    rw [String.toList_ofList]
    intro slash
    exact absurd (Text.mem_of_mem_pieces mem slash).2 (by decide)

/-- The plain form of a path tells it from all others. -/
theorem SamePath.of_plainPath (h : plainPath p = plainPath q) : SamePath p q := by
  have joined : ∀ path, (plainPath path).toList =
      (if isAbsolute path then ['/'] else []) ++
        ['/'].intercalate ((significant path).map String.toList) := by
    intro path
    rw [plainPath, String.toList_append, String.toList_intercalate]
    split <;> rfl
  have names : ∀ path, ∀ part ∈ (significant path).map String.toList,
      part ≠ [] ∧ ∀ c ∈ part, (c == '/') = false := by
    intro path part mem
    obtain ⟨name, there, rfl⟩ := List.mem_map.mp mem
    obtain ⟨filled, whole⟩ := forall_mem_significant there
    refine ⟨fun none => filled (String.toList_inj.mp none), fun c hc => ?_⟩
    rw [beq_eq_false_iff_ne]
    rintro rfl
    exact whole hc
  -- The first character of a joined name is no slash, so a slash in front comes from the root.
  have inner : ∀ path rest,
      ['/'].intercalate ((significant path).map String.toList) ≠ '/' :: rest := by
    intro path rest same
    cases h : (significant path).map String.toList with
    | nil =>
      rw [h] at same
      cases same
    | cons part parts =>
      obtain ⟨filled, whole⟩ := names path part (h ▸ List.mem_cons_self)
      obtain ⟨c, cs, rfl⟩ := List.exists_cons_of_ne_nil filled
      have first : c = '/' := by
        rw [h] at same
        cases parts with
        | nil =>
          rw [List.intercalate_singleton] at same
          exact (List.cons.inj same).1
        | cons next parts =>
          rw [List.intercalate_cons_cons] at same
          exact (List.cons.inj same).1
      have other := whole c List.mem_cons_self
      rw [first] at other
      exact absurd other (by decide)
  have texts := congrArg String.toList h
  rw [joined, joined] at texts
  have same : isAbsolute p = isAbsolute q := by
    cases hp : isAbsolute p <;> cases hq : isAbsolute q <;> try rfl
    · rw [hp, hq] at texts
      exact absurd texts (inner p _)
    · rw [hp, hq] at texts
      exact absurd texts.symm (inner q _)
  rw [same] at texts
  have parts := Text.eq_of_intercalate_eq (p := (· == '/')) (by decide) (fun part mem => ?_)
    (List.append_cancel_left texts)
  · exact ⟨same, List.map_injective_iff.mpr (fun s t => String.toList_inj.mp) parts⟩
  · rcases List.mem_append.mp mem with mem | mem
    · exact names p part mem
    · exact names q part mem

/-! ### Parents -/

/-- The path whose characters are given in reverse. -/
def reversed (cs : List Char) : String := String.ofList cs.reverse

theorem reversed_append_slash (cs last : List Char) :
    reversed (last ++ '/' :: cs) = reversed cs ++ "/" ++ reversed last := by
  rw [← String.toList_inj]
  simp [reversed, String.toList_append]

/-- A name that counts for nothing can be left out at the end of a path. -/
theorem SamePath.of_last {last other : String} (h : (names last).filter counts = [])
    (h' : (names other).filter counts = []) (p : String) :
    SamePath (p ++ "/" ++ last) (p ++ "/" ++ other) := by
  refine ⟨?_, ?_⟩
  · rw [isAbsolute_append_slash, isAbsolute_append_slash]
  · rw [significant_append_slash, significant_append_slash, h, h']

/-- A path that is given in reverse starts with its last name. -/
theorem exists_last (cs : List Char) : ∃ name rest, cs = name ++ rest ∧ '/' ∉ name ∧
    (rest = [] ∨ ∃ above, rest = '/' :: above) := by
  induction cs with
  | nil => exact ⟨[], [], rfl, List.not_mem_nil, Or.inl rfl⟩
  | cons c cs ih =>
    by_cases slash : c = '/'
    · exact ⟨[], c :: cs, rfl, List.not_mem_nil, Or.inr ⟨cs, by rw [slash]⟩⟩
    · obtain ⟨name, rest, rfl, whole, ended⟩ := ih
      refine ⟨c :: name, rest, rfl, ?_, ended⟩
      rw [List.mem_cons, not_or]
      exact ⟨Ne.symm slash, whole⟩

/-- What remains of a path has the same names that count. It is empty, or the root, or its last name
counts, unless that is a dot and there is no other. -/
theorem trimPath_spec (cs : List Char) : SamePath (reversed (trimPath cs)) (reversed cs) ∧
    (trimPath cs = [] ∨ trimPath cs = ['/'] ∨ ∃ name rest, trimPath cs = name ++ rest ∧
      name ≠ [] ∧ '/' ∉ name ∧ (rest = [] ∨ (name ≠ ['.'] ∧ ∃ above, rest = '/' :: above))) := by
  fun_induction trimPath cs with
  | case1 => exact ⟨.refl _, Or.inr (Or.inl rfl)⟩
  | case2 rest filled ih =>
    refine ⟨ih.1.trans ?_, ih.2⟩
    have some : (reversed rest).isEmpty = false := by
      rw [← Bool.not_eq_true, String.isEmpty_iff, ← String.toList_inj, reversed,
        String.toList_ofList]
      simpa using filled
    have whole : reversed ('/' :: rest) = reversed rest ++ "/" ++ reversed [] :=
      reversed_append_slash rest []
    rw [whole]
    refine ⟨?_, ?_⟩
    · rw [isAbsolute_append_slash, some, Bool.false_or]
    · rw [significant_append_slash]
      exact (List.append_nil _).symm
  | case3 rest ih =>
    refine ⟨ih.1.trans ?_, ih.2⟩
    have whole : reversed ('/' :: rest) = reversed rest ++ "/" ++ reversed [] :=
      reversed_append_slash rest []
    have dotted : reversed ('.' :: '/' :: rest) = reversed rest ++ "/" ++ reversed ['.'] :=
      reversed_append_slash rest ['.']
    rw [whole, dotted]
    exact .of_last (by decide) (by decide) _
  | case4 cs root slash dot =>
    refine ⟨.refl _, ?_⟩
    obtain ⟨name, rest, rfl, whole, ended⟩ := exists_last cs
    by_cases filled : name = []
    · rw [filled, List.nil_append] at slash ⊢
      rcases ended with rfl | ⟨above, rfl⟩
      · exact Or.inl rfl
      · exact absurd rfl (slash above)
    · refine Or.inr (Or.inr ⟨name, rest, rfl, filled, whole, ended.imp_right ?_⟩)
      rintro ⟨above, rfl⟩
      refine ⟨?_, above, rfl⟩
      rintro rfl
      exact dot above rfl

/-- The parent of a path has all its names that count but the last. -/
theorem parent?_spec (path : String) :
    (significant path = [] ∧ parent? path = none) ∨
      ∃ folder, parent? path = some folder ∧ significant path ≠ [] ∧
        isAbsolute folder = isAbsolute path ∧ significant folder = (significant path).dropLast := by
  obtain ⟨alike, ended⟩ := trimPath_spec path.toList.reverse
  have back : reversed path.toList.reverse = path := by
    rw [reversed, List.reverse_reverse, String.ofList_toList]
  rw [back] at alike
  rw [parent?]
  generalize trimPath path.toList.reverse = cs at alike ended
  rcases ended with rfl | rfl | ⟨name, rest, rfl, filled, whole, ended⟩
  · exact Or.inl ⟨alike.2.symm.trans (by decide), rfl⟩
  · exact Or.inl ⟨alike.2.symm.trans (by decide), rfl⟩
  · right
    have stays : ∀ c ∈ name, (c != '/') = true := by
      intro c hc
      rw [bne_iff_ne]
      rintro rfl
      exact whole hc
    have some : ¬((name ++ rest).isEmpty || name ++ rest == ['/']) = true := by
      rw [Bool.or_eq_true, List.isEmpty_iff, beq_iff_eq]
      rintro (none | root)
      · exact filled (List.append_eq_nil_iff.mp none).1
      · cases name with
        | nil => exact filled rfl
        | cons c name =>
          rw [(List.cons.inj root).1] at whole
          exact whole List.mem_cons_self
    refine ⟨_, if_neg some, ?_⟩
    rw [List.dropWhile_append_of_pos stays]
    have name_eq : (reversed name).toList = name.reverse := String.toList_ofList
    have only : names (reversed name) = [reversed name] :=
      names_of_notMem (by rwa [name_eq, List.mem_reverse])
    have text : reversed name ≠ "" := by
      intro none
      rw [none] at name_eq
      exact filled (List.reverse_eq_nil_iff.mp name_eq.symm)
    rcases ended with rfl | ⟨other, above, rfl⟩
    · rw [List.append_nil] at alike
      have single : significant (reversed name) = [reversed name] := by
        rw [significant_eq only]
        simp [text]
      have relative : isAbsolute (reversed name) = false := by
        rw [← Bool.not_eq_true]
        intro absolute
        have none := (isEmpty_first only).mpr (Or.inr absolute)
        exact text none
      rw [← alike.1, ← alike.2, relative, single]
      exact ⟨List.cons_ne_nil _ _, rfl, rfl⟩
    · have last : (names (reversed name)).filter counts = [reversed name] := by
        have dot : reversed name ≠ "." := by
          intro same
          rw [same] at name_eq
          exact other (List.reverse_inj.mp name_eq.symm)
        rw [only, List.filter_singleton, counts_iff.mpr ⟨text, dot⟩]
        rfl
      rw [reversed_append_slash] at alike
      have names_eq : significant path = significant (reversed above) ++ [reversed name] := by
        rw [← alike.2, significant_append_slash, last]
      have trimmed := (trimPath_spec ('/' :: above)).1
      have folder : reversed ('/' :: above) = reversed above ++ "/" ++ "" :=
        reversed_append_slash above []
      rw [folder] at trimmed
      have absolute := isAbsolute_append_slash (reversed above)
      rw [List.dropWhile_cons_of_neg (by decide), names_eq, List.dropLast_concat]
      refine ⟨?_, ?_, ?_⟩
      · exact List.append_ne_nil_of_right_ne_nil _ (List.cons_ne_nil _ _)
      · exact trimmed.1.trans ((absolute _).trans ((absolute _).symm.trans alike.1))
      · refine trimmed.2.trans ?_
        rw [significant_append_slash]
        exact List.append_nil _

theorem SamePath.parent (h : SamePath p q) :
    SamePath ((parent? p).getD ".") ((parent? q).getD ".") := by
  rcases parent?_spec p with ⟨none, hp⟩ | ⟨above, hp, some, absolute, names⟩
  · rcases parent?_spec q with ⟨-, hq⟩ | ⟨-, -, some, -⟩
    · rw [hp, hq]
      exact .refl _
    · exact absurd (h.2.symm.trans none) some
  · rcases parent?_spec q with ⟨none, -⟩ | ⟨above', hq, -, absolute', names'⟩
    · exact absurd (h.2.trans none) some
    · rw [hp, hq]
      refine ⟨absolute.trans (h.1.trans absolute'.symm), ?_⟩
      exact names.trans ((congrArg List.dropLast h.2).trans names'.symm)

/-! ### Joined paths -/

/-- A relative path that is joined to a folder stands behind a slash. -/
theorem joinPath_spec {folder path : String} (relative : isAbsolute path = false)
    (filled : folder ≠ "") : ∃ start, joinPath folder path = start ++ "/" ++ path ∧
      significant start = significant folder ∧
      isAbsolute (start ++ "/" ++ path) = isAbsolute folder := by
  have some : ¬(isAbsolute path || folder.isEmpty) = true := by
    rw [relative, Bool.false_or, String.isEmpty_iff]
    exact filled
  rw [joinPath, if_neg some]
  split
  · next slash =>
    obtain ⟨cs, same⟩ := List.isSuffixOf_iff_suffix.mp slash
    have folder_eq : folder = String.ofList cs ++ "/" ++ "" := by
      rw [← String.toList_inj, ← same]
      simp [String.toList_append]
    refine ⟨String.ofList cs, ?_, ?_, ?_⟩
    · rw [folder_eq, String.append_empty]
    · rw [folder_eq, significant_append_slash]
      exact (List.append_nil _).symm
    · rw [folder_eq, isAbsolute_append_slash, isAbsolute_append_slash]
  · refine ⟨folder, rfl, rfl, ?_⟩
    have shown : folder.isEmpty = false := by
      rw [← Bool.not_eq_true, String.isEmpty_iff]
      exact filled
    rw [isAbsolute_append_slash, shown, Bool.false_or]

theorem SamePath.eq_empty (h : SamePath p q) : p = "" ↔ q = "" := by
  rw [eq_empty_iff, eq_empty_iff, h.1, h.2]

/-- A path that is joined to two spellings of a folder is the same, or differs before a slash only. -/
theorem SamePath.joinPath_cases (h : SamePath p q) (path : String) :
    joinPath p path = joinPath q path ∨ ∃ start other, joinPath p path = start ++ "/" ++ path ∧
      joinPath q path = other ++ "/" ++ path ∧ significant start = significant other ∧
      isAbsolute (start ++ "/" ++ path) = isAbsolute (other ++ "/" ++ path) := by
  cases absolute : isAbsolute path with
  | true =>
    left
    rw [joinPath, joinPath, absolute, Bool.true_or, Bool.true_or]
    rfl
  | false =>
    by_cases none : p = ""
    · left
      rw [none, h.eq_empty.mp none]
    · obtain ⟨start, hp, names, root⟩ := joinPath_spec absolute none
      obtain ⟨other, hq, names', root'⟩ := joinPath_spec absolute fun e => none (h.eq_empty.mpr e)
      refine Or.inr ⟨start, other, hp, hq, ?_, ?_⟩
      · exact names.trans (h.2.trans names'.symm)
      · exact root.trans (h.1.trans root'.symm)

theorem SamePath.joinPath (h : SamePath p q) (path : String) :
    SamePath (joinPath p path) (joinPath q path) := by
  rcases h.joinPath_cases path with same | ⟨start, other, hp, hq, names, root⟩
  · rw [same]
    exact .refl _
  · rw [hp, hq]
    refine ⟨root, ?_⟩
    rw [significant_append_slash, significant_append_slash, names]

end Source

/-! ### Places -/

namespace Files

open Source

variable {f : Files} {p q path : String} {place a b : List String} {ns : List String}

/-- A name that counts for nothing stays in a folder. -/
theorem step_of_not_counts {name : String} (h : counts name = false) :
    f.step place name = match f.entry? place with
      | some .folder => .ok place
      | some (.file _) => .error .notDirectory
      | none => .error .notFound := by
  have stay : (name.isEmpty || name == ".") = true := by
    rw [counts, Bool.and_eq_false_iff, Bool.not_eq_false', bne_eq_false_iff_eq] at h
    rw [Bool.or_eq_true, beq_iff_eq]
    exact h
  unfold step
  cases f.entry? place with
  | none => rfl
  | some e =>
    cases e with
    | folder => exact if_pos stay
    | file bytes => rfl

/-- Before another name, a name that counts for nothing changes nothing. -/
theorem foldlM_skip {name next : String} (h : counts name = false) (rest : List String) :
    (name :: next :: rest).foldlM f.step place = (next :: rest).foldlM f.step place := by
  rw [List.foldlM_cons, step_of_not_counts h]
  cases entry : f.entry? place with
  | none =>
    rw [List.foldlM_cons]
    simp only [step, entry]
    rfl
  | some e =>
    cases e with
    | folder => rfl
    | file bytes =>
      rw [List.foldlM_cons]
      simp only [step, entry]
      rfl

theorem foldlM_filter {next : String} {rest : List String} :
    (ns ++ next :: rest).foldlM f.step place =
      (ns.filter counts ++ next :: rest).foldlM f.step place := by
  induction ns generalizing place with
  | nil => rfl
  | cons name ns ih =>
    cases h : counts name with
    | true =>
      rw [List.filter_cons_of_pos h, List.cons_append, List.cons_append, List.foldlM_cons,
        List.foldlM_cons]
      congr 1
      funext next
      exact ih
    | false =>
      rw [List.filter_cons_of_neg (by rw [h]; exact Bool.false_ne_true), ← ih, List.cons_append]
      cases ns with
      | nil => exact foldlM_skip h _
      | cons other ns => exact foldlM_skip h _

/-- The names that count lead to where all names lead. -/
theorem foldlM_counts (h : ns.foldlM f.step place = .ok a) :
    (ns.filter counts).foldlM f.step place = .ok a := by
  induction ns generalizing place with
  | nil => exact h
  | cons name ns ih =>
    rw [List.foldlM_cons] at h
    obtain ⟨next, here, later⟩ := Except.ok_of_bind h
    cases hc : counts name with
    | true =>
      rw [List.filter_cons_of_pos hc, List.foldlM_cons, here]
      exact ih later
    | false =>
      have same : next = place := by
        rw [step_of_not_counts hc] at here
        split at here <;> cases here
        rfl
      rw [List.filter_cons_of_neg (by rw [hc]; exact Bool.false_ne_true), ← same]
      exact ih later

/-- A character that is neither a slash nor a dot stands in the names that count. -/
theorem mem_toList_iff {c : Char} (slash : (c == '/') = false) (dot : c ≠ '.') :
    c ∈ path.toList ↔ ∃ name ∈ significant path, c ∈ name.toList := by
  constructor
  · intro h
    obtain ⟨piece, mem, inside⟩ := exists_mem_pieces (p := (· == '/')) slash h
    have other : ∀ s : String, c ∉ s.toList → String.ofList piece ≠ s := by
      rintro s hs rfl
      rw [String.toList_ofList] at hs
      exact hs inside
    have counted := mem_significant (List.mem_map_of_mem mem) (other "" ?_) (other "." ?_)
    · exact ⟨String.ofList piece, counted, by rwa [String.toList_ofList]⟩
    · exact List.not_mem_nil
    · simpa using dot
  · rintro ⟨name, mem, inside⟩
    obtain ⟨piece, there, rfl⟩ := List.mem_map.mp (significant_subset mem)
    rw [String.toList_ofList] at inside
    exact subset_of_mem_pieces there inside

theorem mentions_congr (h : significant p = significant q) {c : Char} (slash : (c == '/') = false)
    (dot : c ≠ '.') : Text.mentions p c = Text.mentions q c := by
  rw [Bool.eq_iff_iff, Text.mentions, Text.mentions, List.contains_iff_mem, List.contains_iff_mem,
    mem_toList_iff slash dot, mem_toList_iff slash dot, h]

theorem mentions_append (p q : String) (c : Char) :
    Text.mentions (p ++ q) c = (Text.mentions p c || Text.mentions q c) := by
  rw [Text.mentions, String.toList_append, List.contains_append]
  rfl

end Files

namespace Source.SamePath

open Files

variable {f : Files} {p q : String} {a b : List String}

/-- A path that is joined to two spellings of a folder leads to one place, or nowhere for one
reason. -/
theorem follow_joinPath (h : SamePath p q) (path : String) :
    f.follow (Source.joinPath p path) = f.follow (Source.joinPath q path) := by
  rcases h.joinPath_cases path with same | ⟨start, other, hp, hq, names, root⟩
  · rw [same]
  · have some : ∀ s : String, (s ++ "/" ++ path).isEmpty = false := by
      intro s
      rw [← Bool.not_eq_true, String.isEmpty_iff, ← String.toList_inj]
      simp [String.toList_append]
    have nul : Text.mentions (start ++ "/" ++ path) '\x00' =
        Text.mentions (other ++ "/" ++ path) '\x00' := by
      rw [mentions_append, mentions_append, mentions_append, mentions_append,
        mentions_congr names (by decide) (by decide)]
    have counted : (Files.names start).filter counts = (Files.names other).filter counts := by
      rw [filter_names, filter_names, names]
    have root : Text.startsWith (start ++ "/" ++ path) "/" =
        Text.startsWith (other ++ "/" ++ path) "/" := root
    rw [hp, hq, follow, follow, nul, some, some, root, names_append_slash, names_append_slash]
    obtain ⟨next, rest, more⟩ := List.exists_cons_of_ne_nil (names_ne_nil path)
    rw [more, foldlM_filter, counted, ← foldlM_filter]

/-- Two spellings lead to one place, when both lead somewhere. -/
theorem follow_eq (h : SamePath p q) (hp : f.follow p = .ok a) (hq : f.follow q = .ok b) :
    a = b := by
  have names : ∀ {path place}, f.follow path = .ok place →
      ((significant path).filter counts).foldlM f.step
        (if isAbsolute path then [] else f.home) = .ok place := by
    intro path place found
    unfold follow at found
    split at found
    · cases found
    · split at found
      · cases found
      · rw [← filter_names]
        exact foldlM_counts found
  have same := names hp
  rw [h.1, h.2, names hq] at same
  cases same
  rfl

/-- What a path names from two spellings of a folder is the same path. -/
theorem canonical_joinPath (h : SamePath p q) (path : String) :
    SamePath (f.canonical (Source.joinPath p path)) (f.canonical (Source.joinPath q path)) := by
  rw [canonical, canonical, h.follow_joinPath path]
  split
  · exact .refl _
  · exact h.joinPath path

end Source.SamePath

/-! ### Places of the tree -/

namespace Files

variable {f : Files}

/-- A place is the root, or it is on the way to the home folder, a folder or a file. -/
theorem mem_places_iff {place : List String} :
    place ∈ f.places ↔
      place = [] ∨ ∃ p ∈ f.home :: f.folders ++ f.contents.map (·.1), place <+: p := by
  rw [places, List.mem_cons, List.mem_flatMap]
  constructor
  · rintro (h | ⟨p, hp, h⟩)
    · exact Or.inl h
    · refine Or.inr ⟨p, hp, ?_⟩
      rcases List.mem_append.mp h with h | h
      · obtain ⟨n, -, hn⟩ := List.mem_filterMap.mp h
        split at hn
        · cases hn
        · cases hn
          exact List.take_prefix _ _
      · obtain rfl := List.mem_singleton.mp h
        exact List.prefix_refl place
  · rintro (h | ⟨p, hp, h⟩)
    · exact Or.inl h
    · by_cases hnil : place = []
      · exact Or.inl hnil
      · refine Or.inr ⟨p, hp, List.mem_append.mpr ?_⟩
        have htake := List.prefix_iff_eq_take.mp h
        rcases Nat.lt_or_ge place.length p.length with hl | hl
        · refine Or.inl (List.mem_filterMap.mpr ⟨place.length, List.mem_range.mpr hl, ?_⟩)
          rw [if_neg (by simpa using hnil), ← htake]
        · right
          rw [List.take_of_length_le hl] at htake
          rw [htake]
          exact List.mem_singleton_self p

theorem mem_places_of_entry? {place : List String} (h : (f.entry? place).isSome = true) :
    place ∈ f.places := by
  rw [mem_places_iff]
  unfold entry? at h
  split at h
  · next hf =>
    rw [Bool.or_eq_true, List.isEmpty_iff, List.contains_iff_mem] at hf
    rcases hf with hf | hf
    · exact Or.inl hf
    · exact Or.inr ⟨place, by simp [hf], List.prefix_refl _⟩
  · rw [Option.isSome_map] at h
    obtain ⟨file, mem, same⟩ := List.lookup_isSome_iff.mp h
    obtain rfl := beq_iff_eq.mp same
    exact Or.inr ⟨file.1, List.mem_append_right _ (List.mem_map_of_mem mem), List.prefix_refl _⟩

theorem mem_places_of_step {place next : List String} {name : String} (hp : place ∈ f.places)
    (h : f.step place name = .ok next) : next ∈ f.places := by
  unfold step at h
  split at h
  · split at h
    · cases h
      exact hp
    · split at h
      · cases h
        rw [mem_places_iff] at hp ⊢
        rcases hp with rfl | ⟨p, hp, hpre⟩
        · exact Or.inl rfl
        · exact Or.inr ⟨p, hp, (List.dropLast_prefix _).trans hpre⟩
      · split at h
        · cases h
        · split at h
          · next he =>
            cases h
            exact mem_places_of_entry? he
          · cases h
  · cases h
  · cases h

theorem mem_places_of_foldlM {names : List String} {start place : List String}
    (hs : start ∈ f.places) (h : names.foldlM f.step start = .ok place) : place ∈ f.places := by
  induction names generalizing start with
  | nil =>
    cases h
    exact hs
  | cons name names ih =>
    rw [List.foldlM_cons] at h
    obtain ⟨next, hn, h⟩ := Except.ok_of_bind h
    exact ih (mem_places_of_step hs hn) h

/-- Every path leads to a place of the tree. -/
theorem mem_places_of_follow {path : String} {place : List String}
    (h : f.follow path = .ok place) : place ∈ f.places := by
  unfold follow at h
  split at h
  · cases h
  · split at h
    · cases h
    · refine mem_places_of_foldlM ?_ h
      split
      · exact mem_places_iff.mpr (Or.inl rfl)
      · exact mem_places_iff.mpr (Or.inr ⟨f.home, by simp, List.prefix_refl _⟩)

end Files

end ToolGateway
