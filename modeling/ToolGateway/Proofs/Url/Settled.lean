import ToolGateway.Proofs.Url.Host
import ToolGateway.Proofs.Url.Signless

/-!
# URLs of the web are settled once they are read

Reading puts each part of a URL into the form in which it is printed: what a part may not hold is
encoded, no segment of the path stands for another place, and a usual port is left out. These are
the URLs of the web that are `Settled`: those that were read (`settled_of_parse`), and those that
were read against a settled one (`settled_of_join`).
-/

namespace ToolGateway.Url

/-! ### Encoded parts -/

/-- Whether a text holds only what a part of a URL keeps. -/
def Kept (extra s : String) : Prop :=
  ∀ c ∈ s.toList, 32 ≤ c.toNat ∧ c.toNat < 127 ∧ c ∉ extra.toList

/-- The bytes that a part of a URL keeps. -/
def keeps (extra : String) (b : UInt8) : Bool :=
  Host.isPrintable b && !(extra.toList.any fun c => c.toNat == b.toNat)

theorem encodePart_eq (extra : String) (cs : List Char) :
    encodePart extra cs = Percent.encode (keeps extra) (String.ofList cs) := rfl

variable {extra s : String} {cs : List Char} {c : Char}

theorem ascii_of_keeps (b : UInt8) (h : keeps extra b = true) : b.toNat < 128 := by
  simp only [keeps, Host.isPrintable, Bool.and_eq_true, decide_eq_true_eq] at h
  omega

theorem keeps_iff :
    Percent.Keeps (keeps extra) c ↔ 32 ≤ c.toNat ∧ c.toNat < 127 ∧ c ∉ extra.toList := by
  have any (ascii : c.toNat < 128) : (extra.toList.any fun d => d.toNat == c.toNat) = true ↔
      c ∈ extra.toList := by
    rw [List.any_eq_true]
    constructor
    · rintro ⟨d, hd, same⟩
      rwa [← Char.toNat_inj.mp (beq_iff_eq.mp same)]
    · intro hc
      exact ⟨c, hc, beq_self_eq_true _⟩
  constructor
  · rintro ⟨ascii, kept⟩
    simp only [keeps, Host.isPrintable, toNat_byte ascii, Bool.and_eq_true, decide_eq_true_eq,
      Bool.not_eq_true', ← Bool.not_eq_true, any ascii] at kept
    exact ⟨kept.1.1, kept.1.2, kept.2⟩
  · rintro ⟨low, high, plain⟩
    have ascii : c.toNat < 128 := by omega
    refine ⟨ascii, ?_⟩
    simp only [keeps, Host.isPrintable, toNat_byte ascii, Bool.and_eq_true, decide_eq_true_eq,
      Bool.not_eq_true', ← Bool.not_eq_true, any ascii]
    exact ⟨⟨low, high⟩, plain⟩

theorem encodePart_of_kept (h : Kept extra s) : encodePart extra s.toList = s := by
  rw [encodePart_eq, String.ofList_toList]
  exact Percent.encode_of_kept fun c hc => keeps_iff.mpr (h c hc)

/-- Whether a part of a URL may hold escapes. -/
def Escapes (extra : String) : Prop := ∀ c ∈ "%0123456789ABCDEF".toList, c ∉ extra.toList

theorem kept_of_mem_encodePart (h : c ∈ (encodePart extra cs).toList) :
    (c ∈ cs ∧ 32 ≤ c.toNat ∧ c.toNat < 127 ∧ c ∉ extra.toList) ∨
      c ∈ "%0123456789ABCDEF".toList := by
  rw [encodePart_eq] at h
  rcases Percent.of_mem_encode ascii_of_keeps h with ⟨mem, kept⟩ | escape
  · rw [String.toList_ofList] at mem
    exact Or.inl ⟨mem, keeps_iff.mp kept⟩
  · exact Or.inr (Percent.mem_of_inEscape escape)

theorem kept_encodePart (escapes : Escapes extra) (cs : List Char) :
    Kept extra (encodePart extra cs) := by
  intro c hc
  rcases kept_of_mem_encodePart hc with ⟨-, kept⟩ | escape
  · exact kept
  · have printable : ∀ c ∈ "%0123456789ABCDEF".toList, 32 ≤ c.toNat ∧ c.toNat < 127 :=
      Text.forall_mem (by decide)
    obtain ⟨low, high⟩ := printable c escape
    exact ⟨low, high, escapes c escape⟩

theorem escapes_userExtra : Escapes userExtra := Text.forall_mem (by decide)

theorem escapes_pathExtra : Escapes pathExtra := Text.forall_mem (by decide)

theorem escapes_queryExtra : Escapes (queryExtra true) := Text.forall_mem (by decide)

theorem escapes_fragmentExtra : Escapes fragmentExtra := Text.forall_mem (by decide)

/-! ### Segments -/

/-- A segment of a path as it is printed. -/
structure SettledSegment (s : String) : Prop where
  kept : Kept pathExtra s
  whole : ∀ c ∈ s.toList, isSlash true c = false
  single : isSingleDot s.toList = false
  double : isDoubleDot s.toList = false

/-- The characters of a segment in their encoded form. -/
def encoded (cs : List Char) : List Char :=
  cs.flatMap fun c => Percent.encodeBytes (keeps pathExtra) (Utf8.encodeChar c)

theorem toList_encodePart (cs : List Char) : (encodePart pathExtra cs).toList = encoded cs := by
  rw [encodePart_eq, Percent.toList_encode, String.toList_ofList]
  rfl

theorem encoded_cons_of_kept (kept : Percent.Keeps (keeps pathExtra) c) (cs : List Char) :
    encoded (c :: cs) = c :: encoded cs := by
  rw [encoded, List.flatMap_cons, kept.encodeBytes]
  rfl

/-- A character that is encoded starts with an escape, and not with that of a dot. -/
theorem encoded_cons_of_not_kept (other : ¬ Percent.Keeps (keeps pathExtra) c) (cs : List Char) :
    ∃ x y rest, encoded (c :: cs) = '%' :: x :: y :: rest ∧ ¬ (x = '2' ∧ (y = 'e' ∨ y = 'E')) := by
  obtain ⟨b, bs, bytes⟩ := List.exists_cons_of_ne_nil (Utf8.encodeChar_ne_nil c)
  have encoded' : keeps pathExtra b = false := by
    rw [Bool.eq_false_iff]
    intro kept
    have same : c.toNat = b.toNat :=
      Utf8.toNat_of_mem_encodeChar (by rw [bytes]; exact List.mem_cons_self) (ascii_of_keeps b kept)
    refine other ⟨by rw [same]; exact ascii_of_keeps b kept, ?_⟩
    rwa [same, UInt8.ofNat_toNat]
  have first : encoded (c :: cs) =
      Percent.escape b ++ (Percent.encodeBytes (keeps pathExtra) bs ++ encoded cs) := by
    rw [encoded, List.flatMap_cons, bytes, Percent.encodeBytes, List.flatMap_cons,
      if_neg (by simp [encoded']), List.append_assoc]
    rfl
  refine ⟨Percent.hexUpper (b.toNat / 16), Percent.hexUpper (b.toNat % 16), _, first, ?_⟩
  · have bound := b.toNat_lt
    have digits : ∀ n < 256, Percent.hexUpper (n / 16) = '2' ∧ (Percent.hexUpper (n % 16) = 'e' ∨
        Percent.hexUpper (n % 16) = 'E') → keeps pathExtra (UInt8.ofNat n) = true := by
      decide +kernel
    intro dot
    have kept := digits b.toNat bound dot
    rw [UInt8.ofNat_toNat, encoded'] at kept
    cases kept

theorem plainDots_cons {l : List Char}
    (h : ¬ (c = '%' ∧ ∃ rest, l = '2' :: 'e' :: rest ∨ l = '2' :: 'E' :: rest)) :
    plainDots (c :: l) = c :: plainDots l := by
  rw [plainDots]
  · rintro rest rfl rfl
    exact h ⟨rfl, rest, Or.inl rfl⟩
  · rintro rest rfl rfl
    exact h ⟨rfl, rest, Or.inr rfl⟩

/-- What is not a percent sign stands there before encoding. -/
theorem of_encoded_eq_cons {rest : List Char} (h : encoded cs = c :: rest) (plain : c ≠ '%') :
    ∃ ds, cs = c :: ds ∧ rest = encoded ds := by
  cases cs with
  | nil => cases h
  | cons d ds =>
    by_cases kept : Percent.Keeps (keeps pathExtra) d
    · rw [encoded_cons_of_kept kept] at h
      cases h
      exact ⟨ds, rfl, rfl⟩
    · obtain ⟨x, y, more, same, -⟩ := encoded_cons_of_not_kept kept ds
      rw [same] at h
      cases h
      exact absurd rfl plain

/-- Encoding does not make dots. -/
theorem plainDots_of_encoded {n : Nat} (h : plainDots (encoded cs) = List.replicate n '.') :
    plainDots cs = List.replicate n '.' := by
  have percent : Percent.Keeps (keeps pathExtra) '%' := by decide
  have two : Percent.Keeps (keeps pathExtra) '2' := by decide
  fun_induction plainDots cs generalizing n with
  | case1 rest ih =>
    rw [encoded_cons_of_kept percent, encoded_cons_of_kept two,
      encoded_cons_of_kept (by decide), plainDots] at h
    cases n with
    | zero => cases h
    | succ m => exact congrArg _ (ih (List.cons.inj h).2)
  | case2 rest ih =>
    rw [encoded_cons_of_kept percent, encoded_cons_of_kept two,
      encoded_cons_of_kept (by decide), plainDots] at h
    cases n with
    | zero => cases h
    | succ m => exact congrArg _ (ih (List.cons.inj h).2)
  | case3 c rest small large ih =>
    by_cases kept : Percent.Keeps (keeps pathExtra) c
    · have plain : ¬ (c = '%' ∧ ∃ more, encoded rest = '2' :: 'e' :: more ∨
          encoded rest = '2' :: 'E' :: more) := by
        rintro ⟨rfl, more, same | same⟩
        · obtain ⟨ds, rfl, tail⟩ := of_encoded_eq_cons same (by decide)
          obtain ⟨es, rfl, -⟩ := of_encoded_eq_cons tail.symm (by decide)
          exact small es rfl rfl
        · obtain ⟨ds, rfl, tail⟩ := of_encoded_eq_cons same (by decide)
          obtain ⟨es, rfl, -⟩ := of_encoded_eq_cons tail.symm (by decide)
          exact large es rfl rfl
      rw [encoded_cons_of_kept kept, plainDots_cons plain] at h
      cases n with
      | zero => cases h
      | succ m =>
        obtain ⟨dot, dots⟩ := List.cons.inj h
        rw [dot, ih dots]
        rfl
    · obtain ⟨x, y, more, same, other⟩ := encoded_cons_of_not_kept kept rest
      have escape : ¬ ('%' = '%' ∧ ∃ tail, x :: y :: more = '2' :: 'e' :: tail ∨
          x :: y :: more = '2' :: 'E' :: tail) := by
        rintro ⟨-, tail, same | same⟩
        · cases same
          exact other ⟨rfl, Or.inl rfl⟩
        · cases same
          exact other ⟨rfl, Or.inr rfl⟩
      rw [same, plainDots_cons escape] at h
      cases n with
      | zero => cases h
      | succ m => cases h
  | case4 => exact h

theorem settledSegment_encodePart (whole : ∀ c ∈ cs, isSlash true c = false)
    (single : isSingleDot cs = false) (double : isDoubleDot cs = false) :
    SettledSegment (encodePart pathExtra cs) where
  kept := kept_encodePart escapes_pathExtra cs
  whole c hc := by
    rcases kept_of_mem_encodePart hc with ⟨mem, -⟩ | escape
    · exact whole c mem
    · have all : ∀ c ∈ "%0123456789ABCDEF".toList, isSlash true c = false :=
        Text.forall_mem (by decide)
      exact all c escape
  single := by
    rw [toList_encodePart]
    refine Bool.eq_false_iff.mpr fun dot => ?_
    have plain := plainDots_of_encoded (n := 1) (beq_iff_eq.mp dot)
    rw [isSingleDot, plain] at single
    cases single
  double := by
    rw [toList_encodePart]
    refine Bool.eq_false_iff.mpr fun dot => ?_
    have plain := plainDots_of_encoded (n := 2) (beq_iff_eq.mp dot)
    rw [isDoubleDot, plain] at double
    cases double

theorem settledSegment_empty : SettledSegment "" where
  kept c hc := by cases hc
  whole c hc := by cases hc
  single := rfl
  double := rfl

/-- A settled segment is appended as it is. -/
theorem SettledSegment.append (h : SettledSegment s) (path : List String) (last : Bool) :
    appendSegment false path s.toList last = path ++ [s] := by
  unfold appendSegment
  rw [if_neg (by simp [h.double]), if_neg (by simp [h.single]), if_neg (by simp),
    encodePart_of_kept h.kept]

theorem settled_appendSegment {path : List String} {segment : List Char} {last : Bool}
    (h : ∀ s ∈ path, SettledSegment s) (whole : ∀ c ∈ segment, isSlash true c = false) :
    ∀ s ∈ appendSegment false path segment last, SettledSegment s := by
  have add {path : List String} {t : String} (hpath : ∀ s ∈ path, SettledSegment s)
      (ht : SettledSegment t) : ∀ s ∈ path ++ [t], SettledSegment s := by
    intro s hs
    rcases List.mem_append.mp hs with hs | hs
    · exact hpath s hs
    · rw [List.mem_singleton.mp hs]
      exact ht
  have shortened : ∀ s ∈ shorten false path, SettledSegment s := by
    intro s hs
    unfold shorten at hs
    split at hs
    · cases hs
    · exact h s (List.dropLast_subset _ hs)
  unfold appendSegment
  split
  · dsimp only
    split
    · exact add shortened settledSegment_empty
    · exact shortened
  · next double =>
    split
    · split
      · exact add h settledSegment_empty
      · exact h
    · next single =>
      rw [if_neg (by simp)]
      exact add h (settledSegment_encodePart whole (Bool.eq_false_iff.mpr single)
        (Bool.eq_false_iff.mpr double))

theorem appendSegment_ne_nil (path : List String) (segment : List Char) :
    appendSegment false path segment true ≠ [] := by
  unfold appendSegment
  split
  · simp
  · split
    · simp
    · rw [if_neg (by simp)]
      simp

theorem settled_appendSegments {path : List String} {segments : List (List Char)}
    (h : ∀ s ∈ path, SettledSegment s)
    (whole : ∀ segment ∈ segments, ∀ c ∈ segment, isSlash true c = false) (ne : segments ≠ []) :
    appendSegments false path segments ≠ [] ∧
      ∀ s ∈ appendSegments false path segments, SettledSegment s := by
  fun_induction appendSegments false path segments with
  | case1 path => exact absurd rfl ne
  | case2 path last =>
    exact ⟨appendSegment_ne_nil path last,
      settled_appendSegment h (whole last List.mem_cons_self)⟩
  | case3 path segment rest more ih =>
    exact ih (settled_appendSegment h (whole segment List.mem_cons_self))
      (fun t ht => whole t (List.mem_cons_of_mem segment ht)) more

/-! ### Parts of a URL -/

/-- The schemes of the web. -/
def IsWeb (scheme : String) : Prop := scheme = "http" ∨ scheme = "https"

theorem IsWeb.isSpecial {scheme : String} (h : IsWeb scheme) : isSpecial scheme = true := by
  rcases h with rfl | rfl <;> decide

theorem IsWeb.ne_file {scheme : String} (h : IsWeb scheme) : (scheme == "file") = false := by
  rcases h with rfl | rfl <;> decide

/-- A path of settled segments, with at least one of them. -/
def SettledPath (p : Path) : Prop :=
  ∃ list, p = .segments list ∧ list ≠ [] ∧ ∀ s ∈ list, SettledSegment s

theorem SettledPath.list {p : Path} (h : SettledPath p) : ∀ s ∈ p.list, SettledSegment s := by
  obtain ⟨list, rfl, -, settled⟩ := h
  exact settled

/-- A URL of the web in the form in which it is printed. -/
structure Settled (u : Url) : Prop where
  web : IsWeb u.scheme
  username : Kept userExtra u.username
  password : Kept userExtra u.password
  host : ∃ h, u.host = some h ∧ h.Settled
  port : ∀ p, u.port = some p → p ≤ 65535 ∧ usualPort? u.scheme ≠ some p
  path : SettledPath u.path
  query : ∀ q, u.query = some q → Kept (queryExtra true) q
  fragment : ∀ f, u.fragment = some f → Kept fragmentExtra f

namespace Settled

variable {u base : Url}

theorem withTail (h : u.Settled) (query fragment : Option (List Char)) :
    (u.withTail query fragment).Settled where
  web := h.web
  username := h.username
  password := h.password
  host := h.host
  port := h.port
  path := h.path
  query q hq := by
    obtain ⟨cs, -, rfl⟩ := Option.map_eq_some_iff.mp hq
    rw [h.web.isSpecial]
    exact kept_encodePart escapes_queryExtra cs
  fragment f hf := by
    obtain ⟨cs, -, rfl⟩ := Option.map_eq_some_iff.mp hf
    exact kept_encodePart escapes_fragmentExtra cs

theorem withPath (h : u.Settled) {path : Path} (settled : SettledPath path) :
    Settled { u with path } :=
  ⟨h.web, h.username, h.password, h.host, h.port, settled, h.query, h.fragment⟩

theorem withQuery (h : u.Settled) {query : Option String}
    (settled : ∀ q, query = some q → Kept (queryExtra true) q) : Settled { u with query } :=
  ⟨h.web, h.username, h.password, h.host, h.port, h.path, settled, h.fragment⟩

theorem withFragment (h : u.Settled) {fragment : Option String}
    (settled : ∀ f, fragment = some f → Kept fragmentExtra f) : Settled { u with fragment } :=
  ⟨h.web, h.username, h.password, h.host, h.port, h.path, h.query, settled⟩

end Settled

/-! ### Reading -/

theorem settled_readPath {scheme : String} (web : IsWeb scheme) {path : List String}
    (h : ∀ s ∈ path, SettledSegment s) (cs : List Char) : SettledPath (readPath scheme path cs) := by
  have whole : ∀ segment ∈ Text.pieces (isSlash true) cs, ∀ c ∈ segment, isSlash true c = false :=
    fun segment hs c hc => (Text.mem_of_mem_pieces hs hc).2
  obtain ⟨ne, settled⟩ := settled_appendSegments h whole (Text.pieces_ne_nil _ _)
  refine ⟨_, ?_, ne, settled⟩
  unfold readPath
  dsimp only
  rw [web.ne_file, web.isSpecial, if_neg Bool.false_ne_true]

theorem settled_pathAfterAuthority {scheme : String} (web : IsWeb scheme) (cs : List Char) :
    SettledPath (pathAfterAuthority scheme cs) := by
  unfold pathAfterAuthority
  split
  · split
    · exact settled_readPath web (by simp) _
    · exact settled_readPath web (by simp) _
  · rw [if_pos web.isSpecial]
    exact settled_readPath web (by simp) _

theorem settled_of_readPort {scheme : String} {p : Nat} (h : readPort scheme cs = .ok (some p)) :
    p ≤ 65535 ∧ usualPort? scheme ≠ some p := by
  unfold readPort at h
  split at h
  · cases h
  split at h
  · cases h
  · next small =>
    split at h
    · cases h
    · next usual =>
      cases h
      refine ⟨Nat.le_of_not_lt small, fun same => ?_⟩
      rw [same] at usual
      simp at usual

theorem settled_of_port {scheme : String} {text : Option (List Char)} {port : Option Nat}
    (h : text.elim (.ok none) (readPort scheme) = .ok port) :
    ∀ p, port = some p → p ≤ 65535 ∧ usualPort? scheme ≠ some p := by
  rintro p rfl
  cases text with
  | none => cases h
  | some digits => exact settled_of_readPort h

theorem settled_of_readHost {scheme : String} (web : IsWeb scheme) {host : Host}
    (h : readHost scheme cs = .ok host) : host.Settled := by
  rw [readHost, if_pos web.isSpecial] at h
  split at h
  · cases h
  · exact Host.settled_of_ofText? h

theorem settled_of_readAuthority {scheme : String} {u : Url} (web : IsWeb scheme)
    (h : readAuthority scheme cs = .ok u) : u.Settled := by
  unfold readAuthority at h
  obtain ⟨_, -, h⟩ := Except.ok_of_bind h
  obtain ⟨host, read, h⟩ := Except.ok_of_bind h
  obtain ⟨_, -, h⟩ := Except.ok_of_bind h
  obtain ⟨port, number, h⟩ := Except.ok_of_bind h
  obtain ⟨_, -, h⟩ := Except.ok_of_bind h
  cases h
  apply Settled.withTail
  exact {
    web := web
    username := kept_encodePart escapes_userExtra _
    password := kept_encodePart escapes_userExtra _
    host := ⟨host, rfl, settled_of_readHost web read⟩
    port := settled_of_port number
    path := settled_pathAfterAuthority web _
    query := fun q e => by cases e
    fragment := fun q e => by cases e }

theorem scheme_of_readAuthority {scheme : String} {u : Url}
    (h : readAuthority scheme cs = .ok u) : u.scheme = scheme := by
  unfold readAuthority at h
  obtain ⟨_, -, h⟩ := Except.ok_of_bind h
  obtain ⟨host, read, h⟩ := Except.ok_of_bind h
  obtain ⟨_, -, h⟩ := Except.ok_of_bind h
  obtain ⟨port, number, h⟩ := Except.ok_of_bind h
  obtain ⟨_, -, h⟩ := Except.ok_of_bind h
  cases h
  rfl

theorem scheme_of_readFileHost {u : Url} (h : readFileHost cs = .ok u) : u.scheme = "file" := by
  unfold readFileHost at h
  dsimp only at h
  split at h
  · cases h
    rfl
  · obtain ⟨host, -, h⟩ := Except.ok_of_bind h
    cases h
    rfl

theorem scheme_of_readFileUrl {u : Url} (h : readFileUrl none cs = .ok u) : u.scheme = "file" := by
  unfold readFileUrl at h
  split at h
  · split at h
    · split at h
      · split at h
        · exact scheme_of_readFileHost h
        · cases h
          rfl
      · cases h
        rfl
    · cases h
      rfl
  · cases h
    rfl

/-- A scheme that is written is that of the URL. -/
theorem scheme_of_readWithScheme {scheme : String} {u : Url}
    (h : readWithScheme none scheme cs = .ok u) : u.scheme = scheme := by
  unfold readWithScheme at h
  split at h
  · next file => rw [beq_iff_eq.mp file, scheme_of_readFileUrl h]
  · split at h
    · exact scheme_of_readAuthority h
    · split at h
      · exact scheme_of_readAuthority h
      · cases h
        rfl

theorem settled_of_readWithScheme {scheme : String} {u : Url} (web : IsWeb scheme)
    (h : readWithScheme none scheme cs = .ok u) : u.Settled := by
  unfold readWithScheme at h
  rw [web.ne_file, if_neg Bool.false_ne_true, if_pos web.isSpecial] at h
  exact settled_of_readAuthority web h

/-- A URL of the web is settled once it is read. -/
theorem settled_of_parse {text : String} {u : Url} (h : parse text = .ok u) (web : IsWeb u.scheme) :
    u.Settled := by
  unfold parse read at h
  dsimp only at h
  split at h
  · next scheme rest _ =>
    rw [scheme_of_readWithScheme h] at web
    exact settled_of_readWithScheme web h
  · cases h

theorem settled_readRelative_under {base : Url} {segments : List String} (settled : base.Settled)
    (h : ∀ s ∈ segments, SettledSegment s) : (readRelative.under base segments cs).Settled :=
  (settled.withPath (settled_readPath settled.web h _)).withTail _ _

theorem settled_readRelative_relative {base : Url} (settled : base.Settled) :
    (readRelative.relative base cs).Settled := by
  unfold readRelative.relative
  dsimp only
  split
  · split
    · exact settled.withTail _ _
    · exact (settled.withTail _ _).withQuery settled.query
  · exact settled_readRelative_under settled fun s hs =>
      settled.path.list s (List.dropLast_subset _ hs)

theorem settled_of_readRelative {base u : Url} (settled : base.Settled)
    (h : readRelative base cs = .ok u) : u.Settled := by
  unfold readRelative at h
  split at h
  · split at h
    · split at h
      · split at h
        · split at h
          · exact settled_of_readAuthority settled.web h
          · exact settled_of_readAuthority settled.web h
        · cases h
          exact settled_readRelative_under settled (by simp)
      · cases h
        exact settled_readRelative_under settled (by simp)
    · cases h
      exact settled_readRelative_relative settled
  · cases h
    exact settled_readRelative_relative settled

/-- A reference without a scheme, read against a settled URL. -/
theorem settled_of_join {base u : Url} {text : String} (settled : base.Settled)
    (relative : splitScheme? (cleaned text) = none) (h : join base text = .ok u) : u.Settled := by
  unfold join read at h
  dsimp only at h
  rw [relative] at h
  dsimp only at h
  split at h
  · cases h
    refine settled.withFragment fun f hf => ?_
    cases hf
    exact kept_encodePart escapes_fragmentExtra _
  · cases h
  · rw [settled.web.ne_file, if_neg Bool.false_ne_true] at h
    exact settled_of_readRelative settled h

end ToolGateway.Url
