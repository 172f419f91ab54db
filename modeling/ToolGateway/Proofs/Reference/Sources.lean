import Mathlib.Algebra.BigOperators.Group.List.Basic
import Mathlib.Algebra.Order.BigOperators.Group.List
import Mathlib.Data.List.Infix
import Mathlib.Tactic.Ring
import ToolGateway.Proofs.Reference.Spellings
import ToolGateway.Reference.Graph

/-!
# The sources under which documents are known

A document of a library is known under its own source, and under all sources that references in the
library lead to (`Library.Reads`). The path of a file that is there has one spelling, but other paths
are spelled as they are put together: what a reference says stands behind the folder of the document
it is in. That folder is the beginning of a path without anything superfluous at its end, so every
piece that was put behind another one brings a name with it (`Pieced.join`). A path has no more names
than some document, so there are only so many sources, and so many targets (`exists_keys`).
-/

namespace ToolGateway

namespace Source

variable {path folder part : String}

/-! ### Folders -/

theorem trimPath_suffix (cs : List Char) : trimPath cs <:+ cs := by
  fun_induction trimPath cs with
  | case1 => exact List.suffix_refl _
  | case2 rest _ ih => exact ih.trans (List.suffix_cons _ _)
  | case3 rest ih => exact ih.trans (List.suffix_cons _ _)
  | case4 cs => exact List.suffix_refl _

theorem trimPath_trimPath (cs : List Char) : trimPath (trimPath cs) = trimPath cs := by
  fun_induction trimPath cs with
  | case1 => rfl
  | case2 rest _ ih => exact ih
  | case3 rest ih => exact ih
  | case4 cs root slash dot => rw [trimPath] <;> assumption

/-- A path with nothing superfluous at its end. -/
def Trimmed (path : String) : Prop := trimPath path.toList.reverse = path.toList.reverse

/-- The folder that relative references in a file start from. -/
def folderOf (path : String) : String := (parent? path).getD "."

theorem folderOf_spec (path : String) : Trimmed (folderOf path) ∧
    (folderOf path = "." ∨ (folderOf path).toList <+: path.toList) := by
  unfold folderOf parent?
  dsimp only
  split
  · exact ⟨rfl, Or.inl rfl⟩
  · generalize above : (trimPath path.toList.reverse).dropWhile (· != '/') = cs
    have text : (String.ofList (trimPath cs).reverse).toList = (trimPath cs).reverse :=
      String.toList_ofList
    rw [Option.getD_some, Trimmed, text, List.reverse_reverse]
    refine ⟨trimPath_trimPath cs, Or.inr ?_⟩
    have inner : trimPath cs <:+ path.toList.reverse :=
      (trimPath_suffix cs).trans
        ((above ▸ List.dropWhile_suffix _).trans (trimPath_suffix path.toList.reverse))
    rw [← List.reverse_suffix, List.reverse_reverse]
    exact inner

/-- The last name of a trimmed path counts, unless there is no other. -/
theorem Trimmed.exists_last (h : Trimmed path) (slash : '/' ∈ path.toList) (other : path ≠ "/") :
    ∃ above last, path = above ++ "/" ++ last ∧ Files.names last = [last] ∧
      counts last = true := by
  have ends := (trimPath_spec path.toList.reverse).2
  rw [h] at ends
  rw [← List.mem_reverse] at slash
  rcases ends with none | root | ⟨name, rest, is, some, whole, rfl | ⟨dotless, above, rfl⟩⟩
  · rw [none] at slash
    cases slash
  · exact absurd (String.toList_inj.mp (List.reverse_inj.mp root)) other
  · rw [is, List.append_nil] at slash
    exact absurd slash whole
  · have text : (reversed name).toList = name.reverse := String.toList_ofList
    refine ⟨reversed above, reversed name, ?_, ?_, counts_iff.mpr ⟨fun none => ?_, fun dot => ?_⟩⟩
    · rw [← reversed_append_slash, ← is, reversed, List.reverse_reverse, String.ofList_toList]
    · exact Files.names_of_notMem (by rwa [text, List.mem_reverse])
    · rw [none] at text
      exact some (List.reverse_eq_nil_iff.mp text.symm)
    · rw [dot] at text
      exact dotless (List.reverse_inj.mp text.symm)

/-- Behind a folder something with a name must stand, or it is superfluous. -/
theorem Trimmed.lt_of_append (h : Trimmed (folder ++ "/" ++ part)) (filled : folder ≠ "") :
    (significant folder).length < (significant (folder ++ "/" ++ part)).length := by
  have slash : '/' ∈ (folder ++ "/" ++ part).toList := by simp [String.toList_append]
  have longer : folder ++ "/" ++ part ≠ "/" := by
    intro root
    have short := congrArg String.length root
    rw [String.length_append, String.length_append] at short
    have one : "/".length = 1 := rfl
    exact filled (String.length_eq_zero_iff.mp (by omega))
  obtain ⟨above, last, same, single, counted⟩ := h.exists_last slash longer
  have names := congrArg Files.names same
  rw [Files.names_append_slash, Files.names_append_slash, single] at names
  -- The last name stands in what was put behind the folder.
  have mem : last ∈ Files.names part := by
    have ends := congrArg List.getLast? names
    rw [List.getLast?_concat, List.getLast?_append_of_ne_nil _ (Files.names_ne_nil part)] at ends
    exact List.mem_of_getLast? ends
  have some := List.length_pos_of_mem (List.mem_filter.mpr ⟨mem, counted⟩)
  rw [significant_append_slash, List.length_append]
  omega

theorem Trimmed.eq_root (h : Trimmed folder) (slash : Text.endsWith folder "/" = true) :
    folder = "/" := by
  obtain ⟨cs, same⟩ := List.isSuffixOf_iff_suffix.mp slash
  have text : folder.toList.reverse = '/' :: cs.reverse := by
    rw [← same]
    simp
  rw [Trimmed, text] at h
  cases rest : cs.reverse with
  | nil =>
    rw [rest] at text
    rw [← String.toList_inj, ← List.reverse_inj, text]
    rfl
  | cons c more =>
    rw [rest] at h
    have shorter : trimPath ('/' :: c :: more) = trimPath (c :: more) := by
      rw [trimPath]
      intro none
      cases none
    have bound := (trimPath_suffix (c :: more)).length_le
    rw [← shorter, h] at bound
    simp at bound

/-- A beginning of a path behind a folder ends in the folder or behind it. -/
theorem start_cases {start : String} (h : start.toList <+: (folder ++ "/" ++ part).toList) :
    start.toList <+: folder.toList ∨ ∃ more : String, start = folder ++ "/" ++ more ∧
      ("/" ++ more).toList <+: ("/" ++ part).toList := by
  have slash : ∀ text : String, ("/" ++ text).toList = '/' :: text.toList := by
    intro text
    rw [String.toList_append]
    rfl
  rw [String.append_assoc, String.toList_append, slash] at h
  rcases List.prefix_or_prefix_of_prefix h (List.prefix_append _ _) with inner | ⟨cs, is⟩
  · exact Or.inl inner
  · rw [← is, List.prefix_append_right_inj] at h
    cases cs with
    | nil =>
      rw [List.append_nil] at is
      exact Or.inl (is ▸ List.prefix_refl _)
    | cons c cs =>
      obtain ⟨rfl, inner⟩ := List.cons_prefix_cons.mp h
      refine Or.inr ⟨String.ofList cs, ?_, ?_⟩
      · rw [← String.toList_inj, ← is, String.append_assoc, String.toList_append, slash,
          String.toList_ofList]
      · rw [slash, slash, String.toList_ofList]
        exact List.cons_prefix_cons.mpr ⟨rfl, inner⟩

/-- What stands behind a folder that is trimmed. -/
theorem Trimmed.joinPath_cases (h : Trimmed folder) (part : String) :
    joinPath folder part = part ∨ joinPath folder part = "/" ++ part ∨
      folder ≠ "" ∧ joinPath folder part = folder ++ "/" ++ part := by
  unfold joinPath
  split
  · exact Or.inl rfl
  · next filled =>
    split
    · next slash => exact Or.inr (Or.inl (by rw [h.eq_root slash]))
    · refine Or.inr (Or.inr ⟨?_, rfl⟩)
      rintro rfl
      exact filled (by simp)

end Source

namespace Library

variable {l : Library} {files : Files} {s base : Source} {d : Source × Json} {path : String}
  {n m : Nat}

/-! ### Pieces of paths -/

/-- The beginnings of the texts that paths are made of. -/
def pieces (files : Files) (l : Library) : List String :=
  (l.texts files).flatMap fun text => text.toList.inits.map String.ofList

theorem mem_pieces_iff {piece : String} :
    piece ∈ l.pieces files ↔ ∃ text ∈ l.texts files, piece.toList <+: text.toList := by
  rw [pieces, List.mem_flatMap]
  refine exists_congr fun text => and_congr_right fun _ => ?_
  rw [List.mem_map]
  constructor
  · rintro ⟨cs, start, rfl⟩
    rw [String.toList_ofList]
    exact (List.mem_inits _ _).mp start
  · intro start
    exact ⟨piece.toList, (List.mem_inits _ _).mpr start, String.ofList_toList⟩

theorem length_pieces :
    (l.pieces files).length =
      ((l.texts files).map fun text => text.length + 1).foldr (· + ·) 0 := by
  rw [pieces, List.length_flatMap, List.sum_eq_foldr]
  congr 1
  refine List.map_congr_left fun text _ => ?_
  rw [List.length_map, List.length_inits, String.length_toList]

/-- What is put together from a piece and up to so many others behind it. -/
def stems (files : Files) (l : Library) : Nat → List String
  | 0 => l.pieces files
  | n + 1 => stems files l n ++
      (stems files l n).flatMap fun stem => (l.pieces files).map (stem ++ ·)

theorem length_stems_le (n : Nat) :
    (l.stems files n).length ≤ ((l.pieces files).length + 1) ^ (n + 1) := by
  induction n with
  | zero =>
    rw [stems, Nat.pow_one]
    exact Nat.le_succ _
  | succ n ih =>
    have added : ((l.stems files n).flatMap fun stem => (l.pieces files).map (stem ++ ·)).length =
        (l.stems files n).length * (l.pieces files).length := by
      simp [List.length_flatMap]
    rw [stems, List.length_append, added]
    calc (l.stems files n).length + (l.stems files n).length * (l.pieces files).length
        = (l.stems files n).length * ((l.pieces files).length + 1) := by ring
      _ ≤ ((l.pieces files).length + 1) ^ (n + 1) * ((l.pieces files).length + 1) :=
        Nat.mul_le_mul_right _ ih
      _ = ((l.pieces files).length + 1) ^ (n + 1 + 1) := (Nat.pow_succ _ _).symm

theorem stems_subset (h : n ≤ m) : l.stems files n ⊆ l.stems files m := by
  induction h with
  | refl => exact List.Subset.refl _
  | step _ ih => exact List.subset_append_of_subset_left _ ih

theorem append_mem_stems {stem piece : String} (h : stem ∈ l.stems files n)
    (mem : piece ∈ l.pieces files) : stem ++ piece ∈ l.stems files (n + 1) :=
  List.mem_append_right _ (List.mem_flatMap.mpr ⟨stem, h, List.mem_map_of_mem mem⟩)

/-- A path that is put together from pieces. Where it is trimmed it has a name for each of them but
the first one. -/
structure Pieced (files : Files) (l : Library) (path : String) : Prop where
  whole : path ∈ l.stems files ((Source.significant path).length + 1)
  trimmed : ∀ start : String, start.toList <+: path.toList → Source.Trimmed start →
    start ∈ l.stems files (Source.significant start).length

theorem mem_stems_of_start {start text : String} (mem : text ∈ l.texts files)
    (h : start.toList <+: text.toList) (n : Nat) : start ∈ l.stems files n :=
  stems_subset (Nat.zero_le n) (mem_pieces_iff.mpr ⟨text, mem, h⟩)

theorem pieced_of_mem_texts (h : path ∈ l.texts files) : Pieced files l path :=
  ⟨mem_stems_of_start h (List.prefix_refl _) _, fun _ start _ => mem_stems_of_start h start _⟩

theorem dot_mem_texts : "." ∈ l.texts files := List.mem_cons_self

namespace Pieced

/-- So is the folder of such a path. -/
theorem folder (h : Pieced files l path) : ∀ start : String,
    start.toList <+: (Source.folderOf path).toList → Source.Trimmed start →
      start ∈ l.stems files (Source.significant start).length := by
  intro start before trimmed
  rcases (Source.folderOf_spec path).2 with dot | inner
  · rw [dot] at before
    exact mem_stems_of_start dot_mem_texts before _
  · exact h.trimmed start (before.trans inner) trimmed

/-- What stands behind the folder of such a path is such a path, since each name of the folder paid
for a piece. -/
theorem join (h : Pieced files l path) {part : String} (mem : part ∈ l.texts files)
    (mem' : "/" ++ part ∈ l.texts files) :
    Pieced files l (Source.joinPath (Source.folderOf path) part) := by
  have trim := (Source.folderOf_spec path).1
  rcases trim.joinPath_cases part with same | same | ⟨filled, same⟩
  · rw [same]
    exact pieced_of_mem_texts mem
  · rw [same]
    exact pieced_of_mem_texts mem'
  · rw [same]
    have start := h.folder
    generalize Source.folderOf path = folder at trim filled start
    have below := start folder (List.prefix_refl _) trim
    have added : (Source.significant folder).length ≤
        (Source.significant (folder ++ "/" ++ part)).length := by
      rw [Source.significant_append_slash, List.length_append]
      exact Nat.le_add_right _ _
    constructor
    · have put := append_mem_stems below (mem_pieces_iff.mpr ⟨_, mem', List.prefix_refl _⟩)
      rw [← String.append_assoc] at put
      exact stems_subset (by omega) put
    · intro piece before trimmed
      rcases Source.start_cases before with inner | ⟨more, rfl, inside⟩
      · exact start piece inner trimmed
      · have put := append_mem_stems below (mem_pieces_iff.mpr ⟨_, mem', inside⟩)
        rw [← String.append_assoc] at put
        exact stems_subset (trimmed.lt_of_append filled) put

/-- The one path of a file that is there is a text, whatever it was spelled like. -/
theorem canonical (h : Pieced files l path) : Pieced files l (files.canonical path) := by
  unfold Files.canonical
  split
  · next place found =>
    refine pieced_of_mem_texts (List.mem_cons_of_mem _ (List.mem_append_left _ ?_))
    exact List.mem_map_of_mem (Files.mem_places_of_follow found)
  · exact h

/-- Where a reference of the library leads to. -/
theorem relative (hd : d ∈ l.documents) {reference : String} (mem : reference ∈ d.2.references)
    (h : ∀ q, base = .file q → Pieced files l q)
    (found : base.relative files (Target.parts reference).1 = .ok (.file path)) :
    Pieced files l path := by
  have texts : Target.texts reference ⊆ l.texts files := by
    intro text ht
    refine List.mem_cons_of_mem _ (List.mem_append_right _ (List.mem_flatMap.mpr ⟨d, hd, ?_⟩))
    exact List.mem_append_right _ (List.mem_flatMap.mpr ⟨reference, mem, ht⟩)
  have part : (Target.parts reference).1 ∈ l.texts files := texts List.mem_cons_self
  have part' : "/" ++ (Target.parts reference).1 ∈ l.texts files :=
    texts (List.mem_cons_of_mem _ List.mem_cons_self)
  unfold Source.relative at found
  split at found
  · cases found
    exact h path rfl
  · split at found
    · split at found <;> cases found
    · split at found
      · split at found
        · next u parsed =>
          split at found
          · next given there =>
            rw [← Source.file.inj (Except.ok.inj found)]
            refine (pieced_of_mem_texts (texts ?_)).canonical
            simp [Target.texts, parsed, there, Except.toOption]
          · cases found
        · cases found
      · split at found
        · split at found <;> cases found
        · next q =>
          rw [← Source.file.inj (Except.ok.inj found)]
          exact ((h q rfl).join part part').canonical

end Pieced

/-! ### Sources -/

/-- A source under which a document is known: its own, or one that a reference in a document of the
library leads to. -/
inductive Reads (l : Library) (files : Files) : Source → Prop
  | own {d : Source × Json} (mem : d ∈ l.documents) : Reads l files d.1
  | named {s : Source} {d : Source × Json} {t : Target} (before : Reads l files s)
      (there : l.document? s = some d) (mem : t ∈ Target.within files s d.2) :
      Reads l files t.source

/-- A target is that of a reference in some document of the library, under some source of it. -/
def Names (l : Library) (files : Files) (t : Target) : Prop :=
  ∃ s d, l.Reads files s ∧ l.document? s = some d ∧ t ∈ Target.within files s d.2

theorem document?_spec {source : Source} {d : Source × Json} (h : l.document? source = some d) :
    d ∈ l.documents ∧ source.same d.1 = true :=
  ⟨List.mem_of_find?_eq_some h, by simpa using List.find?_some h⟩

/-- The documents of a library come from sources that can be read. -/
def Readable (l : Library) : Prop := ∀ d ∈ l.documents, d.1.Settled

/-- A source of a document that is there can be read from, or it is spelled so that it cannot. -/
theorem Reads.settled (h : l.Reads files s) (readable : l.Readable)
    (there : l.document? s = some d) : s.Settled := by
  induction h generalizing d with
  | own mem => exact readable _ mem
  | named _ before mem ih =>
    obtain ⟨reference, -, parsed⟩ := Target.mem_within_iff.mp mem
    obtain ⟨held, same⟩ := document?_spec there
    exact (Target.proper_of_parse (ih before) parsed).settled_of_same (readable _ held)
      (Source.same_iff.mp same)

theorem Reads.pieced (h : l.Reads files (.file path)) : Pieced files l path := by
  generalize is : Source.file path = s at h
  induction h generalizing path with
  | @own d mem =>
    refine pieced_of_mem_texts (List.mem_cons_of_mem _ (List.mem_append_right _ ?_))
    refine List.mem_flatMap.mpr ⟨d, mem, List.mem_append_left _ ?_⟩
    simp [← is, Source.path?]
  | named _ there mem ih =>
    obtain ⟨reference, inside, parsed⟩ := Target.mem_within_iff.mp mem
    obtain ⟨source, found, parsed⟩ := Except.ok_of_bind parsed
    obtain ⟨pointer, -, parsed⟩ := Except.ok_of_bind parsed
    cases parsed
    obtain rfl : Source.file path = source := is
    exact Pieced.relative (document?_spec there).1 inside (fun q same => ih same.symm) found

/-- The sources of documents, those of files from all paths that can be put together. -/
def sources (files : Files) (l : Library) : List Source :=
  l.documents.map (·.1) ++ (l.stems files (l.depth + 1)).map .file

theorem length_sources_le (files : Files) (l : Library) :
    (l.sources files).length ≤ l.sourceCount files := by
  rw [sources, sourceCount, List.length_append, List.length_map, List.length_map, ← length_pieces]
  exact Nat.add_le_add_left (length_stems_le _) _

theorem depth_le (hd : d ∈ l.documents) : d.1.depth ≤ l.depth := by
  have : ∀ ds : List (Source × Json), d ∈ ds → d.1.depth ≤ (ds.map fun d => d.1.depth).foldr max 0 := by
    intro ds mem
    induction ds with
    | nil => cases mem
    | cons e ds ih =>
      rw [List.map_cons, List.foldr_cons]
      rcases List.mem_cons.mp mem with rfl | mem
      · exact Nat.le_max_left _ _
      · exact (ih mem).trans (Nat.le_max_right _ _)
  exact this _ hd

theorem Reads.mem_sources (h : l.Reads files s) (readable : l.Readable)
    (there : l.document? s = some d) : s ∈ l.sources files := by
  obtain ⟨held, same⟩ := document?_spec there
  have one := Source.same_iff.mp same
  cases s with
  | page u =>
    apply List.mem_append_left
    obtain ⟨source, v⟩ := d
    cases source with
    | file q => cases one
    | page u' =>
      have settled := h.settled readable there
      have settled' := readable _ held
      have same : u = u' := settled.url_eq settled' (Sum.inl.inj one)
      exact List.mem_map.mpr ⟨_, held, by rw [same]⟩
  | file path =>
    apply List.mem_append_right
    apply List.mem_map_of_mem
    obtain ⟨source, v⟩ := d
    cases source with
    | page u => cases one
    | file q =>
      have names := (Source.SamePath.of_plainPath (Sum.inr.inj one)).2
      have bound := depth_le held
      refine stems_subset ?_ h.pieced.whole
      rw [names]
      exact Nat.add_le_add_right bound 1

/-- The keys of all targets that a library names, one for each reference under each source. -/
theorem exists_keys (files : Files) (readable : l.Readable) :
    ∃ keys : List String, keys.length ≤ l.sourceCount files * l.referenceCount ∧
      ∀ t, l.Names files t → t.key ∈ keys := by
  refine ⟨(l.sources files).flatMap fun s => l.documents.flatMap fun d =>
    (Target.within files s d.2).map Target.key, ?_, ?_⟩
  · have each : ∀ s, (l.documents.flatMap fun d => (Target.within files s d.2).map Target.key).length ≤
        l.referenceCount := by
      intro s
      rw [referenceCount]
      generalize l.documents = ds
      induction ds with
      | nil => exact Nat.le_refl _
      | cons d ds ih =>
        rw [List.flatMap_cons, List.flatMap_cons, List.length_append, List.length_append,
          List.length_map]
        exact Nat.add_le_add (List.length_filterMap_le _ _) ih
    refine Nat.le_trans ?_ (Nat.mul_le_mul_right _ (length_sources_le files l))
    generalize l.sources files = sources
    induction sources with
    | nil => exact Nat.zero_le _
    | cons s sources ih =>
      rw [List.flatMap_cons, List.length_append, List.length_cons, Nat.succ_mul, Nat.add_comm]
      exact Nat.add_le_add ih (each s)
  · rintro t ⟨s, d, reads, there, mem⟩
    refine List.mem_flatMap.mpr ⟨s, reads.mem_sources readable there, ?_⟩
    exact List.mem_flatMap.mpr ⟨d, (document?_spec there).1, List.mem_map_of_mem mem⟩

end Library

end ToolGateway
