import Mathlib.Data.List.TakeDrop
import ToolGateway.Proofs.Except
import ToolGateway.Proofs.Text.Pieces
import ToolGateway.Url.Parser

/-!
# The number sign in URLs

A printed URL has no number sign before its fragment. Every part of a URL that was read is free of
it: user, path and query encode it, a host may not hold it, and a reference that is read against a
base keeps parts of the base. So the printed form of a URL without a fragment can be told apart from
what follows a number sign after it (`Url.Signless.render`, `Url.Signless.of_parse`,
`Url.Signless.of_join`).
-/

namespace ToolGateway

/-- A text without a number sign. -/
def Text.Signless (s : String) : Prop := '#' ∉ s.toList

namespace Text.Signless

theorem append {s t : String} (hs : Signless s) (ht : Signless t) : Signless (s ++ t) := by
  rw [Signless, String.toList_append, List.mem_append]
  rintro (h | h)
  · exact hs h
  · exact ht h

theorem join {l : List String} (h : ∀ s ∈ l, Signless s) : Signless (String.join l) := by
  rw [Signless, String.toList_join, List.mem_flatMap]
  rintro ⟨s, hs, hc⟩
  exact h s hs hc

theorem intercalate {sep : String} {l : List String} (hsep : Signless sep)
    (h : ∀ s ∈ l, Signless s) : Signless (sep.intercalate l) := by
  induction l with
  | nil => simp [Signless]
  | cons s l ih =>
    have hs := h s List.mem_cons_self
    have ih := ih fun t ht => h t (List.mem_cons_of_mem s ht)
    cases l with
    | nil =>
      rw [String.intercalate_singleton]
      exact hs
    | cons t l =>
      rw [String.intercalate_cons_cons]
      exact (hs.append hsep).append ih

theorem of_append_right {s t : String} (h : Signless (s ++ t)) : Signless t := by
  intro hc
  apply h
  rw [String.toList_append]
  exact List.mem_append_right _ hc

theorem of_append_left {s t : String} (h : Signless (s ++ t)) : Signless s := by
  intro hc
  apply h
  rw [String.toList_append]
  exact List.mem_append_left _ hc

theorem of_intercalate {sep : String} {l : List String} (h : Signless (sep.intercalate l)) :
    ∀ s ∈ l, Signless s := by
  induction l with
  | nil => simp
  | cons s l ih =>
    cases l with
    | nil =>
      rw [String.intercalate_singleton] at h
      simpa using h
    | cons t l =>
      rw [String.intercalate_cons_cons] at h
      intro u hu
      rcases List.mem_cons.mp hu with rfl | hu
      · exact h.of_append_left.of_append_left
      · exact ih h.of_append_right u hu

end Text.Signless

/-! ### Digits -/

theorem exists_digitChar_of_mem_toDigitsCore {b fuel n : Nat} {c : Char} {cs : List Char}
    (h : c ∈ Nat.toDigitsCore b fuel n cs) : c ∈ cs ∨ ∃ d, c = Nat.digitChar d := by
  induction fuel generalizing n cs with
  | zero => exact Or.inl h
  | succ fuel ih =>
    have head : c ∈ Nat.digitChar (n % b) :: cs → c ∈ cs ∨ ∃ d, c = Nat.digitChar d := by
      intro h
      rcases List.mem_cons.mp h with h | h
      · exact Or.inr ⟨_, h⟩
      · exact Or.inl h
    rw [Nat.toDigitsCore] at h
    split at h
    · exact head h
    · rcases ih h with h | h
      · exact head h
      · exact Or.inr h

theorem signless_digits (b n : Nat) : Text.Signless (String.ofList (Nat.toDigits b n)) := by
  rw [Text.Signless, String.toList_ofList]
  intro h
  rcases exists_digitChar_of_mem_toDigitsCore h with h | ⟨d, hd⟩
  · cases h
  · exact Nat.digitChar_ne '#' (by decide) hd.symm

/-! ### Encoding -/

namespace Percent

theorem hexUpper_ne {n : Nat} (h : n < 16) : hexUpper n ≠ '#' := by
  have all : ∀ n < 16, hexUpper n ≠ '#' := by decide
  exact all n h

/-- An encoded text has a number sign only where the byte of a number sign was kept. -/
theorem signless_encode {keep : UInt8 → Bool} {s : String}
    (h : ∀ b ∈ Utf8.encode s, keep b = true → b ≠ 35) : Text.Signless (encode keep s) := by
  have ascii : ∀ n < 256, Char.ofNat n = '#' → n = 35 := by decide +kernel
  rw [Text.Signless, encode, String.toList_ofList, encodeBytes, List.mem_flatMap]
  rintro ⟨b, hb, hc⟩
  have hlt := b.toNat_lt
  split at hc
  · next hk =>
    have hn := ascii b.toNat hlt (List.mem_singleton.mp hc).symm
    exact h b hb hk (UInt8.toNat_inj.mp hn)
  · simp only [escape, List.mem_cons, List.not_mem_nil, or_false] at hc
    rcases hc with hc | hc | hc
    · exact absurd hc (by decide)
    · exact hexUpper_ne (by omega) hc.symm
    · exact hexUpper_ne (by omega) hc.symm

end Percent

/-- Only the number sign itself is encoded with its byte. -/
theorem Utf8.eq_of_mem_encodeChar {c : Char} (h : 35 ∈ encodeChar c) : c = '#' := by
  have hc : c.toNat < 0x110000 := by
    rcases c.valid with h | ⟨_, h⟩
    · exact Nat.lt_trans h (by decide)
    · exact h
  have ofNat : ∀ n < 256, (35 : UInt8) = UInt8.ofNat n → n = 35 := by
    intro n hn h
    have := congrArg UInt8.toNat h
    rw [UInt8.toNat_ofNat_of_lt' hn] at this
    exact this.symm
  have tail : ∀ k, (35 : UInt8) ≠ UInt8.ofNat (0x80 + (c.toNat / Nat.pow 64 k) % 64) := by
    intro k h
    have := ofNat _ (by omega) h
    omega
  simp only [encodeChar] at h
  split at h
  · next hn =>
    have := ofNat _ (by omega) (List.mem_singleton.mp h)
    exact Char.toNat_inj.mp this
  · -- The first byte of a longer sequence is at least 0xC0, and the others at least 0x80.
    exfalso
    have lead : ∀ n, 0xC0 ≤ n → n < 256 → (35 : UInt8) ≠ UInt8.ofNat n := by
      intro n hlow hhigh h
      have := ofNat n hhigh h
      omega
    split at h
    · simp only [List.mem_cons, List.not_mem_nil, or_false] at h
      rcases h with h | h
      · exact lead _ (by omega) (by omega) h
      · exact tail _ h
    · split at h
      · simp only [List.mem_cons, List.not_mem_nil, or_false] at h
        rcases h with h | h | h
        · exact lead _ (by omega) (by omega) h
        · exact tail _ h
        · exact tail _ h
      · simp only [List.mem_cons, List.not_mem_nil, or_false] at h
        rcases h with h | h | h | h
        · exact lead _ (by omega) (by omega) h
        · exact tail _ h
        · exact tail _ h
        · exact tail _ h

namespace Url

/-! ### Parts -/

theorem signless_encodePart {extra : String} {cs : List Char} (h : '#' ∈ extra.toList) :
    Text.Signless (encodePart extra cs) := by
  apply Percent.signless_encode
  intro b _ hk
  rintro rfl
  simp only [Bool.and_eq_true, Bool.not_eq_true', List.any_eq_false] at hk
  exact hk.2 '#' h (by decide)

theorem signless_encode_of_notMem {cs : List Char} {keep : UInt8 → Bool} (h : '#' ∉ cs) :
    Text.Signless (Percent.encode keep (String.ofList cs)) := by
  apply Percent.signless_encode
  intro b hb _
  rintro rfl
  rw [Utf8.encode, String.toList_ofList, List.mem_flatMap] at hb
  obtain ⟨c, hc, hb⟩ := hb
  rw [Utf8.eq_of_mem_encodeChar hb] at hc
  exact h hc

/-- A path without number signs. -/
def Path.Signless : Path → Prop
  | .plain text => Text.Signless text
  | .segments list => ∀ s ∈ list, Text.Signless s

theorem Path.Signless.render {p : Path} (h : p.Signless) : Text.Signless p.render := by
  cases p with
  | plain text => exact h
  | segments list =>
    apply Text.Signless.join
    intro s hs
    obtain ⟨t, ht, rfl⟩ := List.mem_map.mp hs
    exact Text.Signless.append (by simp [Text.Signless]) (h t ht)

theorem Path.Signless.list {p : Path} (h : p.Signless) : ∀ s ∈ p.list, Text.Signless s := by
  cases p with
  | plain text => intro s hs; cases hs
  | segments list => exact h

theorem signless_shorten {file : Bool} {path : List String}
    (h : ∀ s ∈ path, Text.Signless s) : ∀ s ∈ shorten file path, Text.Signless s := by
  intro s hs
  unfold shorten at hs
  split at hs
  · split at hs
    · exact h s hs
    · cases hs
  · exact h s (List.dropLast_subset _ hs)

theorem signless_appendSegment {file last : Bool} {path : List String} {segment : List Char}
    (h : ∀ s ∈ path, Text.Signless s) :
    ∀ s ∈ appendSegment file path segment last, Text.Signless s := by
  have shortened : ∀ s ∈ shorten file path, Text.Signless s := signless_shorten h
  have add : ∀ (path : List String) (t : String), (∀ s ∈ path, Text.Signless s) →
      Text.Signless t → ∀ s ∈ path ++ [t], Text.Signless s := by
    intro path t hpath ht s hs
    rcases List.mem_append.mp hs with hs | hs
    · exact hpath s hs
    · rw [List.mem_singleton.mp hs]
      exact ht
  have empty : Text.Signless "" := by simp [Text.Signless]
  unfold appendSegment
  split
  · split
    · exact add _ _ shortened empty
    · exact shortened
  · split
    · split
      · exact add _ _ h empty
      · exact h
    · split
      · next hd =>
        refine add _ _ h (Text.Signless.append ?_ (by simp [Text.Signless]))
        rw [Text.Signless, String.toList_ofList]
        simp only [Bool.and_eq_true] at hd
        unfold isDrive at hd
        split at hd
        · next c d =>
          rw [List.take_succ_cons, List.take_zero, List.mem_singleton]
          rintro rfl
          exact absurd ((Bool.and_eq_true _ _).mp hd.2).1 (by decide)
        · exact absurd hd.2 (by decide)
      · exact add _ _ h (signless_encodePart (by decide))

theorem signless_appendSegments {file : Bool} {path : List String} {segments : List (List Char)}
    (h : ∀ s ∈ path, Text.Signless s) :
    ∀ s ∈ appendSegments file path segments, Text.Signless s := by
  fun_induction appendSegments file path segments with
  | case1 path => exact h
  | case2 path last => exact signless_appendSegment h
  | case3 path segment rest _ ih => exact ih (signless_appendSegment h)

theorem signless_readPath {scheme : String} {base : List String} {cs : List Char}
    (h : ∀ s ∈ base, Text.Signless s) : (readPath scheme base cs).Signless := by
  intro s hs
  have all : ∀ s ∈ appendSegments (scheme == "file") base
      (Text.pieces (isSlash (isSpecial scheme)) cs), Text.Signless s := signless_appendSegments h
  split at hs
  · unfold tidyFile at hs
    split at hs
    · rw [List.mem_singleton.mp hs]
      simp [Text.Signless]
    · exact all s ((List.dropWhile_suffix _).subset hs)
  · exact all s hs

theorem signless_pathAfterAuthority {scheme : String} {cs : List Char} :
    (pathAfterAuthority scheme cs).Signless := by
  have root : ∀ cs, (readPath scheme [] cs).Signless := fun _ => signless_readPath (by simp)
  unfold pathAfterAuthority
  split
  · split
    · exact root _
    · exact root _
  · split
    · exact root _
    · intro s hs
      cases hs

/-! ### Hosts -/

namespace Host

theorem signless_renderIpv4 (a : Nat) : Text.Signless (renderIpv4 a) := by
  apply Text.Signless.intercalate (by simp [Text.Signless])
  intro s hs
  obtain ⟨k, -, rfl⟩ := List.mem_map.mp hs
  exact signless_digits _ _

theorem signless_renderIpv6 (gs : List Nat) : Text.Signless (renderIpv6 gs) := by
  have colons : ∀ gs : List Nat,
      Text.Signless (":".intercalate (gs.map hexadecimal)) := by
    intro gs
    apply Text.Signless.intercalate (by simp [Text.Signless])
    intro s hs
    obtain ⟨g, -, rfl⟩ := List.mem_map.mp hs
    exact signless_digits _ _
  have left : Text.Signless "[" := by simp [Text.Signless]
  have right : Text.Signless "]" := by simp [Text.Signless]
  have gap : Text.Signless "::" := by simp [Text.Signless]
  unfold renderIpv6
  dsimp only
  split
  · exact (left.append (colons gs)).append right
  · exact (((left.append (colons _)).append gap).append (colons _)).append right

theorem signless_of_bracketed? {cs : List Char} {h : Host} (hh : bracketed? cs = .ok h) :
    Text.Signless h.render := by
  unfold bracketed? at hh
  split at hh
  · split at hh
    · cases hh
      exact signless_renderIpv6 _
    · cases hh
  · cases hh

theorem notMem_of_toAscii? {bytes : List UInt8} {name : List Char}
    (h : Domain.toAscii? bytes = some name) : '#' ∉ name := by
  obtain ⟨text, -, h⟩ := Option.bind_eq_some_iff.mp h
  obtain ⟨labels, -, h⟩ := Option.bind_eq_some_iff.mp h
  dsimp only at h
  split at h
  · cases h
  · next hall =>
    cases h
    intro hc
    exact hall (List.any_eq_true.mpr ⟨'#', hc, by decide⟩)

theorem signless_of_ofText? {cs : List Char} {h : Host} (hh : ofText? cs = .ok h) :
    Text.Signless h.render := by
  unfold ofText? at hh
  split at hh
  · exact signless_of_bracketed? hh
  · split at hh
    · cases hh
    · next name hname =>
      split at hh
      · cases hh
      · split at hh
        · split at hh
          · cases hh
            exact signless_renderIpv4 _
          · cases hh
        · cases hh
          rw [Text.Signless, render, String.toList_ofList]
          exact notMem_of_toAscii? hname

theorem signless_of_ofOpaque? {cs : List Char} {h : Host} (hh : ofOpaque? cs = .ok h) :
    Text.Signless h.render := by
  unfold ofOpaque? at hh
  split at hh
  · exact signless_of_bracketed? hh
  · split at hh
    · cases hh
    · next hall =>
      cases hh
      apply signless_encode_of_notMem
      intro hc
      exact hall (List.any_eq_true.mpr ⟨'#', hc, by decide⟩)

end Host

theorem signless_readHost {scheme : String} {cs : List Char} {h : Host}
    (hh : readHost scheme cs = .ok h) : Text.Signless h.render := by
  unfold readHost at hh
  split at hh
  · split at hh
    · cases hh
    · exact Host.signless_of_ofText? hh
  · exact Host.signless_of_ofOpaque? hh

/-! ### Whole URLs -/

/-- No part of a URL before its fragment has a number sign. -/
structure Signless (u : Url) : Prop where
  scheme : Text.Signless u.scheme
  username : Text.Signless u.username
  password : Text.Signless u.password
  host : ∀ h, u.host = some h → Text.Signless h.render
  path : u.path.Signless
  query : ∀ q, u.query = some q → Text.Signless q

namespace Signless

theorem render {u : Url} (h : u.Signless) : Text.Signless u.withoutFragment.render := by
  have text : ∀ s : String, s.toList.all (· != '#') = true → Text.Signless s := by
    intro s hs hc
    simpa using List.all_eq_true.mp hs _ hc
  have user : Text.Signless u.renderUser := by
    unfold renderUser
    split
    · exact text _ (by decide)
    · refine (h.username.append ?_).append (text _ (by decide))
      split
      · exact text _ (by decide)
      · exact (text _ (by decide)).append h.password
  have authority : Text.Signless u.renderAuthority := by
    unfold renderAuthority
    split
    · next host hh =>
      refine (((text _ (by decide)).append user).append (h.host host hh)).append ?_
      split
      · exact (text _ (by decide)).append (signless_digits _ _)
      · exact text _ (by decide)
    · split
      · exact text _ (by decide)
      · exact text _ (by decide)
  show Text.Signless (u.renderWithoutFragment ++ "")
  refine Text.Signless.append ?_ (text "" (by decide))
  unfold renderWithoutFragment
  refine (((h.scheme.append (text _ (by decide))).append authority).append h.path.render).append ?_
  split
  · next q hq => exact (text _ (by decide)).append (h.query q hq)
  · exact text _ (by decide)

theorem withTail {u : Url} (h : u.Signless) (query fragment : Option (List Char)) :
    (u.withTail query fragment).Signless where
  scheme := h.scheme
  username := h.username
  password := h.password
  host := h.host
  path := h.path
  query := by
    intro q hq
    obtain ⟨cs, -, rfl⟩ := Option.map_eq_some_iff.mp hq
    apply signless_encodePart
    unfold queryExtra
    split <;> decide

theorem withPath {u : Url} (h : u.Signless) {path : Path} (hp : path.Signless) :
    Signless { u with path } :=
  ⟨h.scheme, h.username, h.password, h.host, hp, h.query⟩

end Signless

/-! ### Reading -/

theorem signless_of_readAuthority {scheme : String} {cs : List Char} {u : Url}
    (hs : Text.Signless scheme) (h : readAuthority scheme cs = .ok u) : u.Signless := by
  unfold readAuthority at h
  obtain ⟨_, -, h⟩ := Except.ok_of_bind h
  obtain ⟨host, hh, h⟩ := Except.ok_of_bind h
  obtain ⟨_, -, h⟩ := Except.ok_of_bind h
  obtain ⟨port, -, h⟩ := Except.ok_of_bind h
  obtain ⟨_, -, h⟩ := Except.ok_of_bind h
  cases h
  apply Signless.withTail
  exact {
    scheme := hs
    username := signless_encodePart (by decide)
    password := signless_encodePart (by decide)
    host := fun h e => by
      cases e
      exact signless_readHost hh
    path := signless_pathAfterAuthority
    query := fun q e => by cases e }

theorem signless_emptyHost : Text.Signless (Host.domain "").render := by
  simp [Host.render, Text.Signless]

theorem signless_fileUrl {host : Host} {path : Path} (hh : Text.Signless host.render)
    (hp : path.Signless) : (fileUrl host path).Signless where
  scheme := by simp [fileUrl, Text.Signless]
  username := by simp [fileUrl, Text.Signless]
  password := by simp [fileUrl, Text.Signless]
  host := fun h e => by
    cases e
    exact hh
  path := hp
  query := fun q e => by cases e

theorem signless_fileHost {host : Host} {path : Path} (h : Text.Signless host.render) :
    Text.Signless (fileHost host path).render := by
  unfold fileHost
  split
  · split
    · exact signless_emptyHost
    · exact h
  · split
    · exact signless_emptyHost
    · exact h

theorem signless_of_readFileHost {cs : List Char} {u : Url} (h : readFileHost cs = .ok u) :
    u.Signless := by
  unfold readFileHost at h
  dsimp only at h
  split at h
  · cases h
    exact (signless_fileUrl signless_emptyHost (signless_readPath (by simp))).withTail _ _
  · obtain ⟨host, hh, h⟩ := Except.ok_of_bind h
    cases h
    refine (signless_fileUrl (signless_fileHost ?_) signless_pathAfterAuthority).withTail _ _
    split at hh
    · cases hh
      exact signless_emptyHost
    · exact Host.signless_of_ofText? hh

/-- The host that a `file` URL takes over from its base. -/
theorem signless_baseHost {base : Option Url} (hb : ∀ b, base = some b → b.Signless) :
    Text.Signless ((base.bind (·.host)).getD (.domain "")).render := by
  cases hh : base.bind (·.host) with
  | none => exact signless_emptyHost
  | some host =>
    obtain ⟨b, hbase, hhost⟩ := Option.bind_eq_some_iff.mp hh
    exact (hb b hbase).host host hhost

theorem signless_readFileUrl_rooted {base : Option Url} {cs : List Char}
    (hb : ∀ b, base = some b → b.Signless) : (readFileUrl.rooted base cs).Signless := by
  unfold readFileUrl.rooted
  dsimp only
  have inherit : ∀ b, (if startsWithDrive cs then none else base) = some b → b.Signless := by
    intro b h
    split at h
    · cases h
    · exact hb b h
  generalize (if startsWithDrive cs then none else base) = inherited at inherit
  have host : ∀ drive : List String, Text.Signless (if drive.isEmpty = true then
      (inherited.bind (·.host)).getD (.domain "") else Host.domain "").render := by
    intro drive
    split
    · exact signless_baseHost inherit
    · exact signless_emptyHost
  apply Signless.withTail
  apply signless_fileUrl
  · exact host _
  · apply signless_readPath
    intro s hs
    split at hs
    · next t _ heq =>
      split at hs
      · obtain ⟨b, rfl, hl⟩ := Option.map_eq_some_iff.mp heq
        have hlist := (inherit b rfl).path.list
        rw [hl] at hlist
        rw [List.mem_singleton.mp hs]
        exact hlist t List.mem_cons_self
      · cases hs
    · cases hs

theorem signless_readFileUrl_relative {base : Option Url} {cs : List Char}
    (hb : ∀ b, base = some b → b.Signless) : (readFileUrl.relative base cs).Signless := by
  have plain : ∀ main, (fileUrl (.domain "") (readPath "file" [] main)).Signless := fun _ =>
    signless_fileUrl signless_emptyHost (signless_readPath (by simp))
  unfold readFileUrl.relative
  dsimp only
  split
  · exact (plain _).withTail _ _
  · next b =>
    have hb := hb b rfl
    split
    · split
      · exact hb.withTail _ _
      · exact ⟨hb.scheme, hb.username, hb.password, hb.host, hb.path, hb.query⟩
    · split
      · exact (plain _).withTail _ _
      · exact (hb.withPath (signless_readPath (signless_shorten hb.path.list))).withTail _ _

theorem signless_of_readFileUrl {base : Option Url} {cs : List Char} {u : Url}
    (hb : ∀ b, base = some b → b.Signless) (h : readFileUrl base cs = .ok u) : u.Signless := by
  unfold readFileUrl at h
  split at h
  · split at h
    · split at h
      · split at h
        · exact signless_of_readFileHost h
        · cases h
          exact signless_readFileUrl_rooted hb
      · cases h
        exact signless_readFileUrl_rooted hb
    · cases h
      exact signless_readFileUrl_relative hb
  · cases h
    exact signless_readFileUrl_relative hb

theorem signless_readRelative_under {base : Url} {segments : List String} {cs : List Char}
    (hb : base.Signless) (hs : ∀ s ∈ segments, Text.Signless s) :
    (readRelative.under base segments cs).Signless :=
  (hb.withPath (signless_readPath hs)).withTail _ _

theorem signless_readRelative_relative {base : Url} {cs : List Char} (hb : base.Signless) :
    (readRelative.relative base cs).Signless := by
  unfold readRelative.relative
  dsimp only
  split
  · split
    · exact hb.withTail _ _
    · exact ⟨hb.scheme, hb.username, hb.password, hb.host, hb.path, hb.query⟩
  · exact signless_readRelative_under hb fun s hs => hb.path.list s (List.dropLast_subset _ hs)

theorem signless_of_readRelative {base : Url} {cs : List Char} {u : Url} (hb : base.Signless)
    (h : readRelative base cs = .ok u) : u.Signless := by
  unfold readRelative at h
  split at h
  · split at h
    · split at h
      · split at h
        · split at h
          · exact signless_of_readAuthority hb.scheme h
          · exact signless_of_readAuthority hb.scheme h
        · cases h
          exact signless_readRelative_under hb (by simp)
      · cases h
        exact signless_readRelative_under hb (by simp)
    · cases h
      exact signless_readRelative_relative hb
  · cases h
    exact signless_readRelative_relative hb

/-- What stands before the query of a reference has no number sign. -/
theorem notMem_splitTail {cs : List Char} : '#' ∉ (splitTail cs).1 := by
  have path : ∀ {main path query : List Char}, '#' ∉ main →
      Text.splitOnce? '?' main = some (path, query) → '#' ∉ path := by
    intro main path query hmain hq hc
    exact hmain ((Text.subset_of_splitOnce? hq).1 hc)
  unfold splitTail
  cases hf : Text.splitOnce? '#' cs with
  | none =>
    have whole := Text.splitOnce?_eq_none_iff.mp hf
    dsimp only
    split
    · next hq => exact path whole hq
    · exact whole
  | some parts =>
    have before := Text.notMem_of_splitOnce? hf
    dsimp only
    split
    · next hq => exact path before hq
    · exact before

theorem signless_of_readWithScheme {base : Option Url} {scheme : String} {cs : List Char} {u : Url}
    (hs : Text.Signless scheme) (hb : ∀ b, base = some b → b.Signless)
    (h : readWithScheme base scheme cs = .ok u) : u.Signless := by
  unfold readWithScheme at h
  split at h
  · refine signless_of_readFileUrl ?_ h
    intro b hbase
    exact hb b (Option.filter_eq_some_iff.mp hbase).1
  · split at h
    · dsimp only at h
      split at h
      · next b =>
        split at h
        · exact signless_of_readRelative (hb b rfl) h
        · exact signless_of_readAuthority hs h
      · exact signless_of_readAuthority hs h
    · split at h
      · exact signless_of_readAuthority hs h
      · cases h
        apply Signless.withTail
        exact {
          scheme := hs
          username := by simp [Text.Signless]
          password := by simp [Text.Signless]
          host := fun h e => by cases e
          path := by
            dsimp only
            split
            · exact signless_readPath (by simp)
            · exact signless_encode_of_notMem notMem_splitTail
          query := fun q e => by cases e }

/-- The characters of a scheme stay ones in lowercase. -/
theorem isSchemeChar_lowerChar {c : Char} (h : isSchemeChar c = true) :
    isSchemeChar (Text.lowerChar c) = true := by
  unfold Text.lowerChar
  split
  · next hc =>
    have letters : ∀ n < 91, 65 ≤ n → isSchemeChar (Char.ofNat (n + 32)) = true := by decide
    have low : 65 ≤ c.toNat := hc.1
    have high : c.toNat ≤ 90 := hc.2
    exact letters c.toNat (by omega) low
  · exact h

theorem isSchemeChar_of_splitScheme? {cs rest : List Char} {scheme : String}
    (h : splitScheme? cs = some (scheme, rest)) : ∀ c ∈ scheme.toList, isSchemeChar c = true := by
  unfold splitScheme? at h
  rw [List.span_eq_takeWhile_dropWhile] at h
  split at h
  · next c name _ heq =>
    split at h
    · cases h
      intro d hd
      rw [String.toList_ofList, ← (Prod.mk.inj heq).1] at hd
      obtain ⟨e, he, rfl⟩ := List.mem_map.mp hd
      exact isSchemeChar_lowerChar (List.mem_takeWhile_imp he)
    · cases h
  · cases h

theorem signless_of_splitScheme? {cs rest : List Char} {scheme : String}
    (h : splitScheme? cs = some (scheme, rest)) : Text.Signless scheme :=
  fun mem => absurd (isSchemeChar_of_splitScheme? h '#' mem) (by decide)

theorem signless_of_read {base : Option Url} {text : String} {u : Url}
    (hb : ∀ b, base = some b → b.Signless) (h : read base text = .ok u) : u.Signless := by
  unfold read at h
  dsimp only at h
  split at h
  · next scheme rest hs => exact signless_of_readWithScheme (signless_of_splitScheme? hs) hb h
  · split at h
    · cases h
    · next b =>
      have hb := hb b rfl
      split at h
      · cases h
        exact ⟨hb.scheme, hb.username, hb.password, hb.host, hb.path, hb.query⟩
      · cases h
      · split at h
        · exact signless_of_readFileUrl (fun _ e => by cases e; exact hb) h
        · exact signless_of_readRelative hb h

theorem Signless.of_parse {text : String} {u : Url} (h : parse text = .ok u) : u.Signless :=
  signless_of_read (fun _ e => by cases e) h

theorem Signless.of_join {base : Url} {text : String} {u : Url} (hb : base.Signless)
    (h : join base text = .ok u) : u.Signless :=
  signless_of_read (fun _ e => by cases e; exact hb) h

end Url

end ToolGateway
