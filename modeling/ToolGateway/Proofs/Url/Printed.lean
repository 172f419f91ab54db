import Mathlib.Data.List.DropRight
import ToolGateway.Proofs.Url.Settled

/-!
# Reading a printed URL

What stands before the path of a settled URL is read back as it was, whatever the path after it is
(`parse_printed`): the user ends at the only at-sign, the host at the only colon outside brackets,
and the whole of it at the first slash.
-/

namespace ToolGateway.Url

variable {u : Url} {host : Host}

/-! ### The authority -/

/-- The port with the colon before it. -/
def portText (u : Url) : List Char :=
  match u.port with
  | some p => ':' :: Nat.toDigits 10 p
  | none => []

/-- User, host and port. -/
def authorityText (u : Url) (host : Host) : List Char :=
  u.renderUser.toList ++ (host.render.toList ++ u.portText)

theorem toList_renderAuthority (h : u.host = some host) :
    u.renderAuthority.toList = '/' :: '/' :: authorityText u host := by
  unfold renderAuthority authorityText portText
  rw [h]
  cases u.port <;> simp [String.toList_append, decimal]

/-- A character of an authority has no meaning for what is around it. -/
def InAuthority (c : Char) : Prop := 32 < c.toNat ∧ c.toNat < 127 ∧ c ∉ "/\\?#".toList

instance (c : Char) : Decidable (InAuthority c) := inferInstanceAs (Decidable (_ ∧ _ ∧ _))

theorem Kept.notMem {extra s : String} (h : Kept extra s) {c : Char} (hc : c ∈ extra.toList) :
    c ∉ s.toList := fun mem => (h c mem).2.2 hc

theorem Kept.inAuthority {s : String} (h : Kept userExtra s) {c : Char} (hc : c ∈ s.toList) :
    InAuthority c ∧ c ≠ '@' := by
  obtain ⟨low, high, plain⟩ := h c hc
  have all : ∀ c ∈ " /\\?#@".toList, c ∈ userExtra.toList := Text.forall_mem (by decide)
  have other (d : Char) (hd : d ∈ " /\\?#@".toList) : c ≠ d := by
    rintro rfl
    exact plain (all c hd)
  refine ⟨⟨?_, high, ?_⟩, other '@' (by decide)⟩
  · have blank : c.toNat ≠ 32 := fun same => other ' ' (by decide) (Char.toNat_inj.mp same)
    omega
  · intro mem
    exact other c (by
      have sub : ∀ c ∈ "/\\?#".toList, c ∈ " /\\?#@".toList := Text.forall_mem (by decide)
      exact sub c mem) rfl

theorem inAuthority_of_mem_portText {c : Char} (hc : c ∈ u.portText) :
    InAuthority c ∧ c ≠ '@' := by
  have bounds : 48 ≤ c.toNat ∧ c.toNat < 59 := by
    unfold portText at hc
    split at hc
    · rcases List.mem_cons.mp hc with rfl | hc
      · decide
      · have low : 48 ≤ c.toNat := (Host.isDigit_of_mem_decimal hc).1
        have high : c.toNat ≤ 57 := (Host.isDigit_of_mem_decimal hc).2
        omega
    · cases hc
  exact forall_ascii (P := fun c => 48 ≤ c.toNat ∧ c.toNat < 59 → InAuthority c ∧ c ≠ '@')
    (by decide) (by omega) bounds

theorem Host.Settled.inAuthority (h : host.Settled) {c : Char} (hc : c ∈ host.render.toList) :
    InAuthority c ∧ c ≠ '@' := by
  obtain ⟨low, high, plain⟩ := h.chars c hc
  have sub : ∀ c, c ∈ "/\\?#".toList ∨ c = '@' → c ∈ "/\\?#@".toList := by
    intro c hc
    rcases hc with hc | rfl
    · have all : ∀ c ∈ "/\\?#".toList, c ∈ "/\\?#@".toList := Text.forall_mem (by decide)
      exact all c hc
    · decide
  exact ⟨⟨low, high, fun mem => plain (sub c (Or.inl mem))⟩, fun same => plain (sub c (Or.inr same))⟩

theorem server_inAuthority (h : host.Settled) {c : Char}
    (hc : c ∈ host.render.toList ++ u.portText) : InAuthority c ∧ c ≠ '@' := by
  rcases List.mem_append.mp hc with hc | hc
  · exact h.inAuthority hc
  · exact inAuthority_of_mem_portText hc

/-- User name and password without the at-sign. -/
def userText (u : Url) : List Char :=
  u.username.toList ++ (if u.password.isEmpty then [] else ':' :: u.password.toList)

theorem toList_renderUser (u : Url) :
    u.renderUser.toList = if u.userText.isEmpty then [] else u.userText ++ ['@'] := by
  unfold renderUser userText
  by_cases user : u.username.isEmpty = true <;> by_cases password : u.password.isEmpty = true <;>
    simp_all [String.toList_append]

theorem userText_inAuthority (h : u.Settled) {c : Char} (hc : c ∈ u.userText) :
    InAuthority c ∧ c ≠ '@' := by
  rcases List.mem_append.mp hc with hc | hc
  · exact h.username.inAuthority hc
  · split at hc
    · cases hc
    · rcases List.mem_cons.mp hc with rfl | hc
      · decide
      · exact h.password.inAuthority hc

theorem authorityText_inAuthority (h : u.Settled) (settled : host.Settled) {c : Char}
    (hc : c ∈ authorityText u host) : InAuthority c := by
  rcases List.mem_append.mp hc with hc | hc
  · rw [toList_renderUser] at hc
    split at hc
    · cases hc
    · rcases List.mem_append.mp hc with hc | hc
      · exact (userText_inAuthority h hc).1
      · rw [List.mem_singleton.mp hc]
        decide
  · exact (server_inAuthority settled hc).1

/-! ### Taking the authority apart -/

theorem splitUser_of_notMem {server : List Char} (h : '@' ∉ server) :
    splitUser server = (none, server) := by
  have all : ∀ c ∈ server.reverse, (c != '@') = true := by
    intro c hc
    rw [bne_iff_ne]
    rintro rfl
    exact h (List.mem_reverse.mp hc)
  unfold splitUser
  rw [List.takeWhile_eq_self_iff.mpr all, List.reverse_reverse, if_pos rfl]

theorem splitUser_append {user server : List Char} (h : '@' ∉ server) :
    splitUser (user ++ '@' :: server) = (some user, server) := by
  have all : ∀ c ∈ server.reverse, (c != '@') = true := by
    intro c hc
    rw [bne_iff_ne]
    rintro rfl
    exact h (List.mem_reverse.mp hc)
  have last : ((user ++ '@' :: server).reverse.takeWhile (· != '@')).reverse = server := by
    rw [List.reverse_append, List.reverse_cons, List.append_assoc, List.takeWhile_append_of_pos all]
    simp
  have longer : server.length ≠ (user ++ '@' :: server).length := by
    rw [List.length_append, List.length_cons]
    omega
  have before : (user ++ '@' :: server).take
      ((user ++ '@' :: server).length - server.length - 1) = user := by
    refine List.take_left' ?_
    rw [List.length_append, List.length_cons]
    omega
  unfold splitUser
  dsimp only
  rw [last, if_neg longer, before]

theorem splitUser_authorityText (settled : host.Settled) :
    splitUser (authorityText u host) =
      (if u.userText.isEmpty then none else some u.userText, host.render.toList ++ u.portText) := by
  have server : '@' ∉ host.render.toList ++ u.portText := fun h =>
    (server_inAuthority settled h).2 rfl
  unfold authorityText
  rw [toList_renderUser]
  split
  · rw [List.nil_append, splitUser_of_notMem server]
  · rw [List.append_assoc, List.singleton_append, splitUser_append server]

theorem splitPassword_userText (h : u.Settled) :
    splitPassword u.userText = (u.username.toList, u.password.toList) := by
  have colon : ':' ∉ u.username.toList := h.username.notMem (by decide)
  unfold splitPassword userText
  split
  · next empty =>
    have none : u.password.toList = [] := by simpa using empty
    rw [List.append_nil, Text.splitOnce?_eq_none_iff.mpr colon, none]
    rfl
  · rw [Text.splitOnce?_append colon, Text.splitOnce?_cons_self]
    simp

theorem splitPassword_getD (h : u.Settled) :
    splitPassword ((if u.userText.isEmpty then none else some u.userText).getD []) =
      (u.username.toList, u.password.toList) := by
  rw [← splitPassword_userText h]
  split
  · next empty => rw [List.isEmpty_iff.mp empty]; rfl
  · rfl

theorem splitPort_server (settled : host.Settled) :
    splitPort false (host.render.toList ++ u.portText) =
      (host.render.toList, u.port.map (Nat.toDigits 10)) := by
  rw [settled.port]
  unfold portText
  cases u.port with
  | none => simp [splitPort]
  | some p =>
    dsimp only
    rw [splitPort, if_pos ⟨rfl, Bool.false_ne_true⟩, List.append_nil]
    rfl

theorem readPort_toDigits {scheme : String} {p : Nat} (small : p ≤ 65535)
    (unusual : usualPort? scheme ≠ some p) : readPort scheme (Nat.toDigits 10 p) = .ok (some p) := by
  have value : decimalValue 0 (Nat.toDigits 10 p) = p := Nat.ofDigitChars_ten_toDigits
  have some : (Nat.toDigits 10 p).isEmpty = false := by simp [Nat.toDigits_ne_nil]
  unfold readPort
  rw [Host.all_isDigit_decimal, value, some, if_neg (by simp), if_neg (by omega), if_neg (by simpa using unusual)]

theorem elim_readPort (h : u.Settled) :
    (u.port.map (Nat.toDigits 10)).elim (.ok none) (readPort u.scheme) = .ok u.port := by
  cases port : u.port with
  | none => rfl
  | some p =>
    obtain ⟨small, unusual⟩ := h.port p port
    exact readPort_toDigits small unusual

/-! ### What comes after the path -/

/-- A text without a question mark and a number sign stays before the query. -/
theorem splitTail_append {cs : List Char} (question : '?' ∉ cs) (sign : '#' ∉ cs)
    (rest : List Char) :
    splitTail (cs ++ rest) =
      (cs ++ (splitTail rest).1, (splitTail rest).2.1, (splitTail rest).2.2) := by
  unfold splitTail
  rw [Text.splitOnce?_append sign]
  cases Text.splitOnce? '#' rest with
  | none =>
    dsimp only [Option.map_none]
    rw [Text.splitOnce?_append question]
    cases Text.splitOnce? '?' rest <;> rfl
  | some parts =>
    dsimp only [Option.map_some]
    rw [Text.splitOnce?_append question]
    cases Text.splitOnce? '?' parts.1 <;> rfl

theorem takeWhile_authority (h : u.Settled) (settled : host.Settled) (rest : List Char) :
    (authorityText u host ++ '/' :: rest).takeWhile (!isSlash true ·) = authorityText u host ∧
      (authorityText u host ++ '/' :: rest).dropWhile (!isSlash true ·) = '/' :: rest := by
  have plain : ∀ c ∈ authorityText u host, (!isSlash true c) = true := by
    intro c hc
    have other := (authorityText_inAuthority h settled hc).2.2
    rw [Bool.not_eq_true', Bool.eq_false_iff]
    intro slash
    simp only [isSlash, Bool.true_and, Bool.or_eq_true, decide_eq_true_eq] at slash
    rcases slash with rfl | rfl <;> exact other (by decide)
  rw [List.takeWhile_append_of_pos plain, List.dropWhile_append_of_pos plain,
    List.takeWhile_cons_of_neg (by decide), List.dropWhile_cons_of_neg (by decide),
    List.append_nil]
  exact ⟨rfl, rfl⟩

/-- Reads an authority as it is printed, with any path after it. -/
theorem readAuthority_printed (h : u.Settled) (hosted : u.host = some host)
    (settled : host.Settled) (rest : List Char) :
    readAuthority u.scheme (authorityText u host ++ '/' :: rest) =
      .ok ({ u with
        path := readPath u.scheme [] (splitTail rest).1
        query := none
        fragment := none }.withTail (splitTail rest).2.1 (splitTail rest).2.2) := by
  have question : '?' ∉ authorityText u host := fun mem =>
    (authorityText_inAuthority h settled mem).2.2 (by decide)
  have sign : '#' ∉ authorityText u host := fun mem =>
    (authorityText_inAuthority h settled mem).2.2 (by decide)
  have tail : splitTail ('/' :: rest) =
      ('/' :: (splitTail rest).1, (splitTail rest).2.1, (splitTail rest).2.2) := by
    have plain : '?' ∉ ['/'] ∧ '#' ∉ ['/'] := by decide
    exact splitTail_append plain.1 plain.2 rest
  obtain ⟨authority, path⟩ := takeWhile_authority h settled (splitTail rest).1
  have empty : (host == Host.domain "") = false := by
    rw [beq_eq_false_iff_ne]
    rintro rfl
    exact settled.nonempty rfl
  have known (f : Host → Except Fault Url) : (Except.ok host >>= f) = f host := rfl
  have name : readHost u.scheme host.render.toList = .ok host := by
    rw [readHost, if_pos h.web.isSpecial, if_neg (by simpa using settled.nonempty), settled.reads]
  have server : (host.render.toList ++ u.portText).isEmpty = false := by
    simpa using fun none _ => settled.nonempty none
  have first : pathAfterAuthority u.scheme ('/' :: (splitTail rest).1) =
      readPath u.scheme [] (splitTail rest).1 := by
    rw [pathAfterAuthority, h.web.isSpecial, if_pos (by decide)]
  unfold readAuthority
  rw [splitTail_append question sign, tail]
  dsimp only
  rw [h.web.isSpecial, authority, path, splitUser_authorityText settled]
  dsimp only
  rw [splitPort_server settled]
  dsimp only
  rw [name, elim_readPort h, splitPassword_getD h, server, first]
  dsimp only
  rw [encodePart_of_kept h.username, encodePart_of_kept h.password]
  -- Nothing is refused, because there is a host.
  rw [known, empty, Bool.and_false, Bool.false_and, Bool.false_and, hosted]
  rfl

theorem splitTail_question {query : List Char} (sign : '#' ∉ query) :
    splitTail ('?' :: query) = ([], some query, none) := by
  have whole : '#' ∉ '?' :: query := by simpa using sign
  unfold splitTail
  rw [Text.splitOnce?_eq_none_iff.mpr whole]
  dsimp only
  rw [Text.splitOnce?_cons_self]

/-! ### Cleaning -/

/-- Whether a character counts wherever it stands. -/
def counts (c : Char) : Bool := c ≠ '\t' ∧ c ≠ '\n' ∧ c ≠ '\r'

/-- The end of a text without the characters that do not count. -/
def tidied (cs : List Char) : List Char := (cs.reverse.dropWhile (·.toNat ≤ 32)).reverse.filter counts

theorem counts_of_visible {c : Char} (h : 32 < c.toNat) : counts c = true := by
  unfold counts
  rw [decide_eq_true_iff]
  refine ⟨?_, ?_, ?_⟩ <;> rintro rfl <;> exact absurd h (by decide)

theorem filter_counts_of_visible {cs : List Char} (h : ∀ c ∈ cs, 32 < c.toNat) :
    cs.filter counts = cs :=
  List.filter_eq_self.mpr fun c hc => counts_of_visible (h c hc)

/-- What comes before a visible character keeps its place. -/
theorem tidied_append_cons {c : Char} (hc : 32 < c.toNat) (cs rest : List Char) :
    tidied (cs ++ c :: rest) = cs.filter counts ++ c :: tidied rest := by
  unfold tidied
  rw [Text.reverse_dropWhile_append (by simpa using hc), List.filter_append,
    List.filter_cons_of_pos (counts_of_visible hc)]

theorem tidied_append {cs : List Char} (h : ∀ c ∈ cs, 32 < c.toNat) (rest : List Char) :
    tidied (cs ++ rest) = cs ++ tidied rest := by
  induction cs with
  | nil => rfl
  | cons c cs ih =>
    have first := tidied_append_cons (h c List.mem_cons_self) [] (cs ++ rest)
    rw [List.nil_append] at first
    rw [List.cons_append, first, ih fun d hd => h d (List.mem_cons_of_mem c hd)]
    rfl

theorem tidied_of_visible {cs : List Char} (h : ∀ c ∈ cs, 32 < c.toNat) : tidied cs = cs := by
  have whole := tidied_append h []
  rw [List.append_nil] at whole
  exact whole.trans (List.append_nil cs)

theorem tidied_sublist (cs : List Char) : (tidied cs).Sublist cs := by
  have ending : (cs.reverse.dropWhile (·.toNat ≤ 32)).reverse.Sublist cs := by
    rw [← List.reverse_sublist, List.reverse_reverse]
    exact List.dropWhile_sublist _
  exact List.filter_sublist.trans ending

/-- A text stays as it is when all of it counts, and it does not end with a blank. -/
theorem tidied_eq_self_iff {cs : List Char} :
    tidied cs = cs ↔ (∀ c ∈ cs, counts c = true) ∧ ∀ c ∈ cs.getLast?, 32 < c.toNat := by
  have ending : cs.rdropWhile (·.toNat ≤ 32) = cs ↔ ∀ c ∈ cs.getLast?, 32 < c.toNat := by
    rw [List.rdropWhile_eq_self_iff]
    constructor
    · intro h c hc
      obtain ⟨ne, rfl⟩ := List.mem_getLast?_eq_getLast hc
      simpa using h ne
    · intro h ne
      simpa using h _ (List.getLast?_eq_getLast_of_ne_nil ne)
  rw [← ending]
  constructor
  · intro same
    have whole : cs.rdropWhile (·.toNat ≤ 32) = cs := by
      refine (List.rdropWhile_prefix _ cs).sublist.antisymm ?_
      have sub : (tidied cs).Sublist (cs.rdropWhile (·.toNat ≤ 32)) := List.filter_sublist
      rwa [same] at sub
    refine ⟨?_, whole⟩
    rw [tidied, show (cs.reverse.dropWhile (·.toNat ≤ 32)).reverse = cs from whole] at same
    exact List.filter_eq_self.mp same
  · rintro ⟨all, whole⟩
    rw [tidied, show (cs.reverse.dropWhile (·.toNat ≤ 32)).reverse = cs from whole]
    exact List.filter_eq_self.mpr all

/-- Nothing is cleaned away before a text that starts with visible characters ends. -/
theorem cleaned_append {s : String} {cs rest : List Char} (text : s.toList = cs ++ rest)
    (h : ∀ c ∈ cs, 32 < c.toNat) (ne : cs ≠ []) : cleaned s = cs ++ tidied rest := by
  obtain ⟨c, ds, rfl⟩ := List.exists_cons_of_ne_nil ne
  have first := h c List.mem_cons_self
  rw [← tidied_append h, ← text]
  unfold cleaned tidied Text.stripChars
  rw [text, List.cons_append, List.dropWhile_cons_of_neg (by simpa using first)]
  rfl

/-! ### Whole URLs -/

/-- Scheme and authority, as they are printed. -/
def startText (u : Url) (host : Host) : List Char :=
  u.scheme.toList ++ ':' :: '/' :: '/' :: authorityText u host

theorem IsWeb.scheme_visible {scheme : String} (h : IsWeb scheme) :
    ∀ c ∈ scheme.toList, 32 < c.toNat := by
  rcases h with rfl | rfl <;> exact Text.forall_mem (by decide)

theorem IsWeb.splitScheme? {scheme : String} (h : IsWeb scheme) (rest : List Char) :
    splitScheme? (scheme.toList ++ ':' :: rest) = some (scheme, rest) := by
  rcases h with rfl | rfl <;> rfl

theorem startText_visible (h : u.Settled) (settled : host.Settled) :
    ∀ c ∈ startText u host, 32 < c.toNat := by
  intro c hc
  rcases List.mem_append.mp hc with hc | hc
  · exact h.web.scheme_visible c hc
  · have sign : ∀ c ∈ [':', '/', '/'], 32 < c.toNat := Text.forall_mem (by decide)
    rcases List.mem_append.mp (show c ∈ [':', '/', '/'] ++ authorityText u host from hc) with hc | hc
    · exact sign c hc
    · exact (authorityText_inAuthority h settled hc).1

theorem authorityText_ne_nil (settled : host.Settled) : authorityText u host ≠ [] := by
  have server : host.render.toList ++ u.portText ≠ [] := fun none =>
    settled.nonempty (List.append_eq_nil_iff.mp none).1
  exact fun none => server (List.append_eq_nil_iff.mp none).2

theorem dropWhile_slashes (h : u.Settled) (settled : host.Settled) (rest : List Char) :
    ('/' :: '/' :: (authorityText u host ++ rest)).dropWhile (isSlash true) =
      authorityText u host ++ rest := by
  obtain ⟨c, cs, first⟩ := List.exists_cons_of_ne_nil (authorityText_ne_nil (u := u) settled)
  have other : c ∉ "/\\?#".toList :=
    (authorityText_inAuthority h settled (by rw [first]; exact List.mem_cons_self)).2.2
  have stays : isSlash true c = false := by
    rw [Bool.eq_false_iff]
    intro slash
    simp only [isSlash, Bool.true_and, Bool.or_eq_true, decide_eq_true_eq] at slash
    rcases slash with rfl | rfl <;> exact other (by decide)
  rw [List.dropWhile_cons_of_pos (by decide), List.dropWhile_cons_of_pos (by decide), first,
    List.cons_append, List.dropWhile_cons_of_neg (by simp [stays])]

/-- Reads a URL whose start is that of a settled one, with any path, query and fragment. -/
theorem parse_printed (h : u.Settled) (hosted : u.host = some host) (settled : host.Settled)
    {s : String} {rest : List Char} (text : s.toList = startText u host ++ '/' :: rest) :
    parse s = .ok ({ u with
      path := readPath u.scheme [] (splitTail (tidied rest)).1
      query := none
      fragment := none }.withTail (splitTail (tidied rest)).2.1 (splitTail (tidied rest)).2.2) := by
  have clean : cleaned s = u.scheme.toList ++ ':' ::
      ('/' :: '/' :: (authorityText u host ++ '/' :: tidied rest)) := by
    have visible := startText_visible h settled
    have slash : ∀ c ∈ startText u host ++ ['/'], 32 < c.toNat := by
      intro c hc
      rcases List.mem_append.mp hc with hc | hc
      · exact visible c hc
      · rw [List.mem_singleton.mp hc]
        decide
    have start : s.toList = startText u host ++ ['/'] ++ rest := by simp [text]
    rw [cleaned_append start slash (by simp)]
    simp [startText]
  unfold parse read
  dsimp only
  rw [clean, h.web.splitScheme?]
  dsimp only
  unfold readWithScheme
  rw [h.web.ne_file, if_neg Bool.false_ne_true, if_pos h.web.isSpecial]
  dsimp only
  rw [dropWhile_slashes h settled, readAuthority_printed h hosted settled]

/-! ### The printed form -/

/-- Segments, each after a slash. -/
def slashed (segments : List String) : List Char := segments.flatMap fun s => '/' :: s.toList

/-- Segments, each before a slash. -/
def leading (segments : List String) : List Char := segments.flatMap fun s => s.toList ++ ['/']

theorem slashed_append_slash (segments : List String) (rest : List Char) :
    slashed segments ++ '/' :: rest = '/' :: (leading segments ++ rest) := by
  induction segments with
  | nil => rfl
  | cons s segments ih =>
    rw [slashed, List.flatMap_cons, List.append_assoc]
    rw [slashed] at ih
    rw [ih, leading, leading, List.flatMap_cons]
    simp

theorem toList_render (h : u.Settled) (hosted : u.host = some host) :
    u.render.toList = startText u host ++ (slashed u.path.list ++
      ((u.query.elim [] fun q => '?' :: q.toList) ++
        u.fragment.elim [] fun f => '#' :: f.toList)) := by
  obtain ⟨list, path, -⟩ := h.path
  have printed : u.path.render.toList = slashed u.path.list := by
    rw [path, Path.render, String.toList_join, List.flatMap_map, Path.list, slashed]
    simp
  unfold render renderWithoutFragment
  rw [String.toList_append, String.toList_append, String.toList_append, String.toList_append,
    String.toList_append, toList_renderAuthority hosted, printed, startText]
  cases u.query <;> cases u.fragment <;> simp [String.toList_append]

theorem toList_trimEnd (c : Char) (s : String) :
    (Text.trimEnd c s).toList = s.toList.rdropWhile (· == c) := String.toList_ofList

/-- Slashes at the end stand for empty segments at the end. -/
theorem rdropWhile_slashed {start : List Char} {segments : List String}
    (last : ∀ c ∈ start.getLast?, c ≠ '/') (whole : ∀ s ∈ segments, '/' ∉ s.toList) :
    (start ++ slashed segments).rdropWhile (· == '/') =
      start ++ slashed (segments.rdropWhile String.isEmpty) := by
  induction segments using List.reverseRecOn with
  | nil =>
    have none : start ++ slashed [] = start := List.append_nil start
    rw [none, List.rdropWhile_nil, none, List.rdropWhile_eq_self_iff]
    intro ne
    rw [beq_iff_eq]
    exact last _ (List.getLast?_eq_getLast_of_ne_nil ne)
  | append_singleton segments s ih =>
    have before := ih fun t ht => whole t (List.mem_append_left _ ht)
    have text : slashed (segments ++ [s]) = slashed segments ++ '/' :: s.toList := by
      rw [slashed, List.flatMap_append, List.flatMap_singleton]
      rfl
    by_cases empty : s.isEmpty = true
    · have none : s.toList = [] := by simpa using empty
      rw [text, none, ← List.append_assoc, List.rdropWhile_concat_pos _ _ _ (by decide), before,
        List.rdropWhile_concat_pos _ _ _ empty]
    · obtain ⟨t, c, split⟩ := List.eq_nil_or_concat s.toList |>.resolve_left (by simpa using empty)
      have other : ¬ (c == '/') = true := by
        rw [beq_iff_eq]
        rintro rfl
        exact whole s (by simp) (by simp [split])
      have ends : start ++ slashed (segments ++ [s]) =
          start ++ slashed segments ++ '/' :: t ++ [c] := by simp [text, split]
      rw [List.rdropWhile_concat_neg _ _ _ empty, ends]
      exact List.rdropWhile_concat_neg _ _ _ other

theorem getLast?_startText (h : u.Settled) (settled : host.Settled) :
    ∀ c ∈ (startText u host).getLast?, c ≠ '/' := by
  intro c hc
  have ne := authorityText_ne_nil (u := u) settled
  have last : (startText u host).getLast? = (authorityText u host).getLast? := by
    have split : startText u host = u.scheme.toList ++ [':', '/', '/'] ++ authorityText u host := by
      simp [startText]
    rw [split, List.getLast?_append_of_ne_nil _ ne]
  rw [last] at hc
  rintro rfl
  exact (authorityText_inAuthority h settled (List.mem_of_getLast? hc)).2.2 (by decide)

/-! ### Segments -/

/-- What stands in a settled segment does not end the path. -/
theorem SettledSegment.inPath {s : String} (h : SettledSegment s) {c : Char} (hc : c ∈ s.toList) :
    32 < c.toNat ∧ c ≠ '?' ∧ c ≠ '#' := by
  obtain ⟨low, -, plain⟩ := h.kept c hc
  have other : ∀ d ∈ " ?#".toList, c ≠ d := by
    have all : ∀ d ∈ " ?#".toList, d ∈ pathExtra.toList := Text.forall_mem (by decide)
    rintro d hd rfl
    exact plain (all c hd)
  have blank : c.toNat ≠ 32 := fun same => other ' ' (by decide) (Char.toNat_inj.mp same)
  exact ⟨by omega, other '?' (by decide), other '#' (by decide)⟩

theorem of_mem_slashed {segments : List String} (settled : ∀ s ∈ segments, SettledSegment s)
    {c : Char} (hc : c ∈ slashed segments) : 32 < c.toNat ∧ c ≠ '?' ∧ c ≠ '#' := by
  obtain ⟨s, hs, hc⟩ := List.mem_flatMap.mp hc
  rcases List.mem_cons.mp hc with rfl | hc
  · decide
  · exact (settled s hs).inPath hc

theorem of_mem_leading {segments : List String} (settled : ∀ s ∈ segments, SettledSegment s)
    {c : Char} (hc : c ∈ leading segments) : 32 < c.toNat ∧ c ≠ '?' ∧ c ≠ '#' := by
  obtain ⟨s, hs, hc⟩ := List.mem_flatMap.mp hc
  rcases List.mem_append.mp hc with hc | hc
  · exact (settled s hs).inPath hc
  · rw [List.mem_singleton.mp hc]
    decide

/-- Settled segments are appended as they are. -/
theorem appendSegments_settled {segments : List String}
    (settled : ∀ s ∈ segments, SettledSegment s) (path : List String) {rest : List (List Char)}
    (ne : rest ≠ []) : appendSegments false path (segments.map String.toList ++ rest) =
      appendSegments false (path ++ segments) rest := by
  induction segments generalizing path with
  | nil => rw [List.append_nil, List.map_nil, List.nil_append]
  | cons s segments ih =>
    obtain ⟨next, more, after⟩ :=
      List.exists_cons_of_ne_nil (List.append_ne_nil_of_right_ne_nil (segments.map String.toList) ne)
    have later := ih (fun t ht => settled t (List.mem_cons_of_mem s ht)) (path ++ [s])
    rw [after] at later
    rw [List.map_cons, List.cons_append, after, appendSegments,
      (settled s List.mem_cons_self).append, later, List.append_assoc, List.singleton_append]
    exact List.cons_ne_nil next more

/-- Printed segments are told apart again. -/
theorem pieces_leading {segments : List String} (settled : ∀ s ∈ segments, SettledSegment s)
    (rest : List Char) : Text.pieces (isSlash true) (leading segments ++ rest) =
      segments.map String.toList ++ Text.pieces (isSlash true) rest := by
  induction segments with
  | nil => rfl
  | cons s segments ih =>
    have text : leading (s :: segments) ++ rest = s.toList ++ '/' :: (leading segments ++ rest) := by
      rw [leading, List.flatMap_cons, leading]
      simp
    rw [text, Text.pieces_append_cons (settled s List.mem_cons_self).whole (by decide),
      ih fun t ht => settled t (List.mem_cons_of_mem s ht)]
    rfl

/-- Segments without dots are appended in encoded form. -/
theorem appendSegments_of_noDots (path : List String) {parts : List (List Char)}
    (single : ∀ part ∈ parts, isSingleDot part = false)
    (double : ∀ part ∈ parts, isDoubleDot part = false) :
    appendSegments false path parts = path ++ parts.map (encodePart pathExtra) := by
  have append (path : List String) {part : List Char} (last : Bool) (mem : part ∈ parts) :
      appendSegment false path part last = path ++ [encodePart pathExtra part] := by
    unfold appendSegment
    rw [if_neg (by simp [double part mem]), if_neg (by simp [single part mem]), if_neg (by simp)]
  fun_induction appendSegments false path parts with
  | case1 path => exact (List.append_nil path).symm
  | case2 path last => exact append path true List.mem_cons_self
  | case3 path part rest _ ih =>
    rw [ih (fun p hp => single p (List.mem_cons_of_mem part hp))
        (fun p hp => double p (List.mem_cons_of_mem part hp))
        fun path q last hq => append path last (List.mem_cons_of_mem part hq),
      append path false List.mem_cons_self, List.append_assoc]
    rfl

end ToolGateway.Url
