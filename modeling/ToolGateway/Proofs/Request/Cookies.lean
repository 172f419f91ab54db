import ToolGateway.Proofs.Text.Pieces
import ToolGateway.Request.Basic

/-!
# Cookies in one header

The cookies of a request share one header, in which a semicolon and a blank stand between them.
Values are written as they are. So the header is read as the cookies that were meant exactly when no
value holds a semicolon with a blank after it (`cookies_read_back_iff`); a value that does ends its
cookie early, and what comes after it is a cookie of its own.
-/

namespace ToolGateway

namespace Text

variable {a b sep : Char} {cs : List Char} {parts : List (List Char)}

/-! ### Cutting between two characters -/

/-- The parts of a text between the places where two characters stand one after the other. -/
def cuts (a b : Char) : List Char → List (List Char)
  | [] => [[]]
  | [c] => [[c]]
  | c :: d :: rest =>
    if c = a ∧ d = b then [] :: cuts a b rest
    else
      match cuts a b (d :: rest) with
      | [] => [[c]]
      | part :: more => (c :: part) :: more

/-- The two characters that separate. -/
theorem cuts_separated (a b : Char) (rest : List Char) :
    cuts a b (a :: b :: rest) = [] :: cuts a b rest := if_pos ⟨rfl, rfl⟩

theorem cuts_ne_nil (a b : Char) (cs : List Char) : cuts a b cs ≠ [] := by
  match cs with
  | [] => exact List.cons_ne_nil _ _
  | [c] => exact List.cons_ne_nil _ _
  | c :: d :: rest =>
    rw [cuts]
    split
    · exact List.cons_ne_nil _ _
    · split <;> exact List.cons_ne_nil _ _

/-- A character that does not begin a separator belongs to the first part. -/
theorem cuts_cons {c : Char} (h : ¬ [a, b] <+: c :: cs) :
    ∃ part more, cuts a b cs = part :: more ∧ cuts a b (c :: cs) = (c :: part) :: more := by
  cases cs with
  | nil => exact ⟨[], [], rfl, rfl⟩
  | cons d rest =>
    obtain ⟨part, more, same⟩ := List.exists_cons_of_ne_nil (cuts_ne_nil a b (d :: rest))
    refine ⟨part, more, same, ?_⟩
    rw [cuts, if_neg, same]
    rintro ⟨rfl, rfl⟩
    exact h (List.prefix_append [c, d] rest)

/-- A text that is cut nowhere ends where the next separator begins. -/
theorem cuts_append_cons (ne : a ≠ b) (h : ¬ [a, b] <:+: cs) (rest : List Char) :
    cuts a b (cs ++ a :: b :: rest) = cs :: cuts a b rest := by
  induction cs with
  | nil => exact cuts_separated a b rest
  | cons c cs ih =>
    obtain ⟨start, later⟩ := not_or.mp fun either => h (List.infix_cons_iff.mpr either)
    -- The last character of the text may be the first of a separator, but the next one is so again.
    have plain : ¬ [a, b] <+: c :: (cs ++ a :: b :: rest) := by
      cases cs with
      | nil =>
        intro both
        obtain ⟨-, both⟩ := List.cons_prefix_cons.mp both
        exact ne (List.cons_prefix_cons.mp both).1.symm
      | cons d cs =>
        intro both
        obtain ⟨first, both⟩ := List.cons_prefix_cons.mp both
        obtain ⟨second, -⟩ := List.cons_prefix_cons.mp both
        rw [first, second] at start
        exact start (List.prefix_append [c, d] cs)
    obtain ⟨part, more, same, cut⟩ := cuts_cons plain
    rw [ih later] at same
    cases same
    exact cut

theorem cuts_of_not_infix (h : ¬ [a, b] <:+: cs) : cuts a b cs = [cs] := by
  induction cs with
  | nil => rfl
  | cons c cs ih =>
    obtain ⟨start, later⟩ := not_or.mp fun either => h (List.infix_cons_iff.mpr either)
    obtain ⟨part, more, same, cut⟩ := cuts_cons start
    rw [ih later] at same
    cases same
    exact cut

theorem cuts_intercalate (ne : a ≠ b) (filled : parts ≠ [])
    (h : ∀ part ∈ parts, ¬ [a, b] <:+: part) : cuts a b ([a, b].intercalate parts) = parts := by
  induction parts with
  | nil => exact absurd rfl filled
  | cons part parts ih =>
    have first := h part List.mem_cons_self
    cases parts with
    | nil =>
      rw [List.intercalate_singleton]
      exact cuts_of_not_infix first
    | cons next parts =>
      have later := ih (List.cons_ne_nil _ _) fun q hq => h q (List.mem_cons_of_mem part hq)
      rw [List.intercalate_cons_cons, List.append_assoc, List.cons_append, List.singleton_append,
        cuts_append_cons ne first, later]

/-- The first part begins the text. -/
theorem prefix_of_cuts {part : List Char} {more : List (List Char)}
    (h : cuts a b cs = part :: more) : part <+: cs := by
  induction cs generalizing part more with
  | nil =>
    cases h
    exact List.prefix_rfl
  | cons c cs ih =>
    by_cases start : [a, b] <+: c :: cs
    · obtain ⟨rest, text⟩ := start
      rw [← text, List.cons_append, List.singleton_append, cuts_separated] at h
      cases h
      exact List.nil_prefix
    · obtain ⟨first, others, same, cut⟩ := cuts_cons start
      rw [h] at cut
      cases cut
      exact List.cons_prefix_cons.mpr ⟨rfl, ih same⟩

/-- No part can be cut again. -/
theorem not_infix_of_mem_cuts {part : List Char} (h : part ∈ cuts a b cs) :
    ¬ [a, b] <:+: part := by
  have none : ¬ [a, b] <:+: [] := fun h =>
    absurd (List.eq_nil_of_infix_nil h) (List.cons_ne_nil _ _)
  induction hn : cs.length using Nat.strongRecOn generalizing cs part with
  | ind n ih =>
    cases cs with
    | nil =>
      rw [List.mem_singleton.mp h]
      exact none
    | cons c cs =>
      by_cases start : [a, b] <+: c :: cs
      · obtain ⟨rest, text⟩ := start
        rw [← text, List.cons_append, List.singleton_append] at h hn
        rw [cuts_separated] at h
        rcases List.mem_cons.mp h with rfl | h
        · exact none
        · exact ih rest.length (by simp at hn; omega) h rfl
      · obtain ⟨first, others, same, cut⟩ := cuts_cons start
        have later : ∀ q ∈ first :: others, ¬ [a, b] <:+: q := fun q hq =>
          ih cs.length (by simp at hn; omega) (same ▸ hq) rfl
        rw [cut] at h
        rcases List.mem_cons.mp h with rfl | h
        · intro both
          rcases List.infix_cons_iff.mp both with both | both
          · exact start (both.trans (List.cons_prefix_cons.mpr ⟨rfl, prefix_of_cuts same⟩))
          · exact later first List.mem_cons_self both
        · exact later part (List.mem_cons_of_mem first h)

/-- Texts that are joined with a separator are cut into the same texts again exactly when none of
them holds a separator itself. -/
theorem cuts_intercalate_iff (ne : a ≠ b) (filled : parts ≠ []) :
    cuts a b ([a, b].intercalate parts) = parts ↔ ∀ part ∈ parts, ¬ [a, b] <:+: part :=
  ⟨fun same _ mem => not_infix_of_mem_cuts (same.symm ▸ mem), cuts_intercalate ne filled⟩

/-- A separator in a text that goes on after other characters is in what comes after them. -/
theorem infix_append_cons_iff {start : List Char} {c : Char} (hs : a ∉ start) (hc : a ≠ c) :
    [a, b] <:+: start ++ c :: cs ↔ [a, b] <:+: cs := by
  have skip : ∀ {d : Char} {ds : List Char}, a ≠ d → ([a, b] <:+: d :: ds ↔ [a, b] <:+: ds) := by
    intro d ds other
    rw [List.infix_cons_iff, or_iff_right]
    exact fun both => other (List.cons_prefix_cons.mp both).1
  induction start with
  | nil => exact skip hc
  | cons d start ih =>
    obtain ⟨other, later⟩ := not_or.mp fun m => hs (List.mem_cons.mpr m)
    rw [List.cons_append, skip other]
    exact ih later

end Text

namespace Request

/-! ### Reading the header -/

/-- A part of a cookie header as the pair of what stands before and after its first equals sign. -/
def readCookie (part : List Char) : Option (String × String) :=
  (Text.splitOnce? '=' part).map fun (name, value) => (String.ofList name, String.ofList value)

/-- The parts of a cookie header, between which a semicolon and a blank stand; none stands for a
part that is no cookie. -/
def readCookies (text : String) : List (Option (String × String)) :=
  (Text.cuts ';' ' ' text.toList).map readCookie

/-- The text of a cookie. -/
def cookiePart (p : String × String) : List Char := p.1.toList ++ '=' :: p.2.toList

theorem readCookie_cookiePart {p : String × String} (h : '=' ∉ p.1.toList) :
    readCookie (cookiePart p) = some p := by
  rw [readCookie, cookiePart, Text.splitOnce?_append h, Text.splitOnce?_cons_self]
  simp

theorem eq_cookiePart_of_readCookie {part : List Char} {p : String × String}
    (h : readCookie part = some p) : part = cookiePart p := by
  obtain ⟨⟨name, value⟩, split, rfl⟩ := Option.map_eq_some_iff.mp h
  rw [cookiePart, String.toList_ofList, String.toList_ofList]
  exact Text.eq_of_splitOnce? split

/-- Parts are read as given cookies exactly when they are the texts of these cookies. -/
theorem map_readCookie_eq_iff {ps : List (String × String)} (names : ∀ p ∈ ps, '=' ∉ p.1.toList)
    {parts : List (List Char)} :
    parts.map readCookie = ps.map some ↔ parts = ps.map cookiePart := by
  constructor
  · intro same
    induction parts generalizing ps with
    | nil => rw [List.map_eq_nil_iff.mp same.symm, List.map_nil]
    | cons part parts ih =>
      cases ps with
      | nil => cases same
      | cons p ps =>
        obtain ⟨first, rest⟩ := List.cons.inj same
        rw [List.map_cons, eq_cookiePart_of_readCookie first,
          ih (fun q hq => names q (List.mem_cons_of_mem p hq)) rest]
  · rintro rfl
    rw [List.map_map]
    exact List.map_congr_left fun p hp => readCookie_cookiePart (names p hp)

theorem mem_keys_of_mem_pairs {ms : Json.Members} {p : String × String} (h : p ∈ pairs ms) :
    p.1 ∈ ms.keys := by
  obtain ⟨m, hm, h⟩ := List.mem_flatMap.mp h
  obtain ⟨item, -, rfl⟩ := List.mem_map.mp h
  exact List.mem_map_of_mem hm

theorem cookieText_eq_none_iff {r : Request} : r.cookieText = none ↔ pairs r.cookies = [] := by
  unfold cookieText
  cases pairs r.cookies <;> simp

theorem toList_cookieText {r : Request} {text : String} (h : r.cookieText = some text) :
    text.toList = [';', ' '].intercalate ((pairs r.cookies).map cookiePart) := by
  unfold cookieText at h
  split at h
  · cases h
  · cases h
    rw [String.toList_intercalate, List.map_map]
    congr 1
    refine List.map_congr_left fun p _ => ?_
    simp [cookiePart]

/-- A cookie header is read as the cookies of the request exactly when no value holds a semicolon
with a blank after it. Names are taken to have no equals sign and no semicolon. -/
theorem cookies_read_back_iff {r : Request}
    (names : ∀ name ∈ r.cookies.keys, '=' ∉ name.toList ∧ ';' ∉ name.toList) :
    (r.cookieText = none ↔ pairs r.cookies = []) ∧
    ∀ text, r.cookieText = some text →
      (readCookies text = (pairs r.cookies).map some ↔
        ∀ p ∈ pairs r.cookies, ¬ [';', ' '] <:+: p.2.toList) := by
  refine ⟨cookieText_eq_none_iff, fun text found => ?_⟩
  have filled : (pairs r.cookies).map cookiePart ≠ [] := by
    intro none
    rw [cookieText_eq_none_iff.mpr (List.map_eq_nil_iff.mp none)] at found
    cases found
  have plain : ∀ p ∈ pairs r.cookies, '=' ∉ p.1.toList ∧ ';' ∉ p.1.toList :=
    fun p hp => names p.1 (mem_keys_of_mem_pairs hp)
  rw [readCookies, map_readCookie_eq_iff fun p hp => (plain p hp).1, toList_cookieText found,
    Text.cuts_intercalate_iff (by decide) filled, List.forall_mem_map]
  refine forall₂_congr fun p hp => not_congr ?_
  exact Text.infix_append_cons_iff (plain p hp).2 (by decide)

/-- Cookies with a list, nulls, and values that hold equals signs and semicolons but no blank after
them. -/
def signedIn : Request :=
  ⟨"GET", "/me", .empty, .empty, .empty, ⟨[("session", .str "a=b;c;"), ("none", .null),
    ("ids", .arr [.str "", .null, .str ";"])]⟩, none⟩

theorem pairs_signedIn :
    pairs signedIn.cookies = [("session", "a=b;c;"), ("ids", ""), ("ids", ";")] := rfl

/-- The statement for values with separators that cut nothing. -/
theorem cookies_read_back_iff_signedIn :
    (∀ name ∈ signedIn.cookies.keys, '=' ∉ name.toList ∧ ';' ∉ name.toList) ∧
    ∃ text, signedIn.cookieText = some text ∧
      readCookies text = [some ("session", "a=b;c;"), some ("ids", ""), some ("ids", ";")] := by
  have names : ∀ name ∈ signedIn.cookies.keys, '=' ∉ name.toList ∧ ';' ∉ name.toList := by
    decide +kernel
  obtain ⟨empty_iff, read_iff⟩ := cookies_read_back_iff names
  rw [pairs_signedIn] at empty_iff read_iff
  cases found : signedIn.cookieText with
  | none => cases empty_iff.mp found
  | some text => exact ⟨names, text, rfl, (read_iff text found).mpr (by decide +kernel)⟩

/-- A value with a semicolon and a blank ends its cookie early and adds another one. -/
theorem value_adds_cookie : ∃ r : Request, ∃ text,
    (∀ name ∈ r.cookies.keys, '=' ∉ name.toList ∧ ';' ∉ name.toList) ∧
      pairs r.cookies = [("session", "abc; admin=1")] ∧ r.cookieText = some text ∧
      readCookies text = [some ("session", "abc"), some ("admin", "1")] ∧
      readCookies text ≠ (pairs r.cookies).map some := by
  exact ⟨⟨"GET", "/me", .empty, .empty, .empty, ⟨[("session", .str "abc; admin=1")]⟩, none⟩,
    "session=abc; admin=1", by decide +kernel, rfl, by decide +kernel, by decide +kernel,
    by decide +kernel⟩

end Request

end ToolGateway
