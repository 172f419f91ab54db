import Mathlib.Data.List.TakeWhile
import ToolGateway.Proofs.Url.Domain
import ToolGateway.Url.Parser

/-!
# Hosts are printed as they are read

The printed form of a host that was read is read as the same host (`Host.settled_of_ofText?`): a
domain name is in its ASCII form, the four numbers of an IPv4 address are those of its bytes, and the
groups of an IPv6 address with a gap in place of zeros are its groups.
-/

namespace ToolGateway.Url

/-! ### Ports after hosts -/

/-- Brackets aside, a colon ends the host. -/
theorem splitPort_append {cs : List Char} (plain : ∀ c ∈ cs, c ≠ ':' ∧ c ≠ '[' ∧ c ≠ ']')
    (rest : List Char) :
    splitPort false (cs ++ rest) = (cs ++ (splitPort false rest).1, (splitPort false rest).2) := by
  induction cs with
  | nil => rfl
  | cons c cs ih =>
    obtain ⟨colon, opening, closing⟩ := plain c List.mem_cons_self
    rw [List.cons_append, splitPort, if_neg (by simp [colon]), if_neg opening, if_neg closing,
      ih fun d hd => plain d (List.mem_cons_of_mem c hd)]
    rfl

/-- Between brackets a colon does not end the host. -/
theorem splitPort_bracketed {cs : List Char} (inner : ∀ c ∈ cs, c ≠ '[' ∧ c ≠ ']')
    (rest : List Char) :
    splitPort true (cs ++ ']' :: rest) =
      (cs ++ ']' :: (splitPort false rest).1, (splitPort false rest).2) := by
  induction cs with
  | nil =>
    rw [List.nil_append, splitPort, if_neg (by simp), if_neg (by decide), if_pos rfl]
    rfl
  | cons c cs ih =>
    obtain ⟨opening, closing⟩ := inner c List.mem_cons_self
    rw [List.cons_append, splitPort, if_neg (by simp), if_neg opening, if_neg closing,
      ih fun d hd => inner d (List.mem_cons_of_mem c hd)]
    rfl

namespace Host

/-- A host that is printed in a form which is read as the same host, alone and before a port. -/
structure Settled (h : Host) : Prop where
  reads : ofText? h.render.toList = .ok h
  nonempty : h.render.toList ≠ []
  chars : ∀ c ∈ h.render.toList, 32 < c.toNat ∧ c.toNat < 127 ∧ c ∉ "/\\?#@".toList
  port : ∀ rest, splitPort false (h.render.toList ++ rest) =
    (h.render.toList ++ (splitPort false rest).1, (splitPort false rest).2)

/-! ### Names -/

/-- Reads a host that does not start with a bracket. -/
theorem ofText?_of_final {name : List Char} (final : Domain.Final name) :
    ofText? name =
      if name.isEmpty then .error .emptyHost
      else if endsInNumber name then
        match ipv4? name with
        | some a => .ok (.ipv4 a)
        | none => .error .badIpv4
      else .ok (.domain (String.ofList name)) := by
  unfold ofText?
  split
  · next rest => exact absurd (final.allowed '[' List.mem_cons_self) (by decide)
  · exact final.reads ▸ rfl

/-- The characters of a name in its ASCII form have no meaning in an authority. -/
theorem of_final {c : Char} {name : List Char} (final : Domain.Final name) (hc : c ∈ name) :
    (32 < c.toNat ∧ c.toNat < 127 ∧ c ∉ "/\\?#@".toList) ∧ c ≠ ':' ∧ c ≠ '[' ∧ c ≠ ']' :=
  forall_ascii (P := fun c => Domain.isForbidden c = false →
    (32 < c.toNat ∧ c.toNat < 127 ∧ c ∉ "/\\?#@".toList) ∧ c ≠ ':' ∧ c ≠ '[' ∧ c ≠ ']')
    (by decide +kernel) (final.ascii c hc) (final.allowed c hc)

theorem settled_of_final {h : Host} {name : List Char} (final : Domain.Final name)
    (ne : name ≠ []) (render : h.render.toList = name) (reads : ofText? name = .ok h) :
    h.Settled where
  reads := by rw [render, reads]
  nonempty := by rwa [render]
  chars c hc := (of_final final (render ▸ hc)).1
  port := by
    rw [render]
    exact splitPort_append fun c hc => (of_final final hc).2

theorem settled_domain {name : List Char} (final : Domain.Final name) (ne : name ≠ [])
    (worded : endsInNumber name = false) : (domain (String.ofList name)).Settled := by
  refine settled_of_final final ne String.toList_ofList ?_
  rw [ofText?_of_final final, if_neg (by simpa using ne), if_neg (by simp [worded])]

/-! ### IPv4 -/

theorem isDigit_of_mem_decimal {n : Nat} {c : Char} (h : c ∈ Nat.toDigits 10 n) :
    '0' ≤ c ∧ c ≤ '9' := by
  have := Nat.isDigit_of_mem_toDigits (by decide) (by decide) h
  simpa [Char.isDigit, Char.le_def] using this

theorem all_isDigit_decimal (n : Nat) : (Nat.toDigits 10 n).all isDigit = true := by
  refine List.all_eq_true.mpr fun c hc => ?_
  simp [isDigit, isDigit_of_mem_decimal hc]

theorem finalLabel_decimal (n : Nat) : Domain.FinalLabel (Nat.toDigits 10 n) := by
  have digit : ∀ c ∈ Nat.toDigits 10 n, Domain.FinalChar c := fun c hc =>
    Domain.finalChar_of_isDigit (Or.inr (isDigit_of_mem_decimal hc))
  refine ⟨digit, ?_⟩
  have ascii : (Nat.toDigits 10 n).all (·.toNat < 128) = true :=
    List.all_eq_true.mpr fun c hc => decide_eq_true (digit c hc).ascii
  have unmarked : ¬ Domain.marker.isPrefixOf (Nat.toDigits 10 n) = true := by
    rw [List.isPrefixOf_iff_prefix]
    rintro ⟨rest, same⟩
    have x : 'x' ∈ Nat.toDigits 10 n := by
      rw [← same]
      exact List.mem_append_left _ (by decide)
    exact absurd (isDigit_of_mem_decimal x).2 (by decide)
  rw [Domain.label?, if_pos ascii, if_neg unmarked]

/-- The bytes of an IPv4 address, the highest first. -/
def octets (a : Nat) : List Nat := [3, 2, 1, 0].map fun k => a / Nat.pow 256 k % 256

theorem toList_renderIpv4 (a : Nat) :
    (renderIpv4 a).toList = ['.'].intercalate ((octets a).map (Nat.toDigits 10)) := by
  unfold renderIpv4 octets
  rw [String.toList_intercalate, List.map_map]
  simp [decimal, Function.comp_def]

theorem ipv4Part?_decimal {n : Nat} (h : n < 256) : ipv4Part? (Nat.toDigits 10 n) = some n := by
  have all : ∀ n < 256, ipv4Part? (Nat.toDigits 10 n) = some n := by decide +kernel
  exact all n h

theorem dottedParts_octets (a : Nat) :
    dottedParts (['.'].intercalate ((octets a).map (Nat.toDigits 10))) =
      (octets a).map (Nat.toDigits 10) := by
  have cut : Text.pieces (· == '.') (['.'].intercalate ((octets a).map (Nat.toDigits 10))) =
      (octets a).map (Nat.toDigits 10) := by
    refine Text.pieces_intercalate rfl (by simp [octets]) ?_
    intro l hl c hc
    obtain ⟨n, -, rfl⟩ := List.mem_map.mp hl
    have inside := ((finalLabel_decimal n).chars c hc).inside
    rwa [Domain.isDot_of_ascii ((finalLabel_decimal n).chars c hc).ascii] at inside
  unfold dottedParts
  dsimp only
  rw [cut, if_neg]
  simp [octets, Nat.toDigits_ne_nil]

theorem endsInNumber_octets (a : Nat) :
    endsInNumber (['.'].intercalate ((octets a).map (Nat.toDigits 10))) = true := by
  unfold endsInNumber
  rw [dottedParts_octets]
  simp only [octets, List.map_cons, List.map_nil, List.getLast?_cons_cons, List.getLast?_singleton]
  split
  · next none => cases none
  · next none => exact absurd (Option.some.inj none) Nat.toDigits_ne_nil
  · next last same =>
    rw [← Option.some.inj same, all_isDigit_decimal]
    rfl

theorem ipv4?_octets {a : Nat} (h : a < 4294967296) :
    ipv4? (['.'].intercalate ((octets a).map (Nat.toDigits 10))) = some a := by
  have parts : ((octets a).map (Nat.toDigits 10)).mapM ipv4Part? = some (octets a) := by
    have byte : ∀ n ∈ octets a, ipv4Part? (Nat.toDigits 10 n) = some n := by
      intro n hn
      obtain ⟨k, -, rfl⟩ := List.mem_map.mp hn
      exact ipv4Part?_decimal (Nat.mod_lt _ (by decide))
    rw [List.mapM_map]
    exact Domain.mapM_eq_some_self byte
  have small : ∀ n, ¬ 255 < n % 256 := fun n => by omega
  unfold ipv4?
  rw [dottedParts_octets, parts]
  simp [octets, small]
  omega

/-- The bytes before the last number and that number have 32 bits. The values of the places are
hypotheses, so that no power is computed while the sum is written out. -/
theorem sum_lt (place : Nat → Nat) {leading : List Nat} {last : Nat} (first : place 0 = 16777216)
    (second : place 1 = 65536) (third : place 2 = 256) (few : leading.length ≤ 3)
    (bytes : ∀ n ∈ leading, n ≤ 255) (rest : last < Nat.pow 256 (4 - leading.length)) :
    leading.zipIdx.foldl (fun sum (n, i) => sum + n * place i) last < 4294967296 := by
  match leading, few, bytes, rest with
  | [], _, _, rest =>
    simp at rest ⊢
    omega
  | [x], _, bytes, rest =>
    simp at bytes rest
    show last + x * place 0 < _
    rw [first]
    omega
  | [x, y], _, bytes, rest =>
    simp at bytes rest
    show last + x * place 0 + y * place 1 < _
    rw [first, second]
    omega
  | [x, y, z], _, bytes, rest =>
    simp at bytes rest
    show last + x * place 0 + y * place 1 + z * place 2 < _
    rw [first, second, third]
    omega
  | _ :: _ :: _ :: _ :: _, few, _, _ =>
    simp only [List.length_cons] at few
    omega

/-- An IPv4 address that was read has 32 bits. -/
theorem lt_of_ipv4? {name : List Char} {a : Nat} (h : ipv4? name = some a) : a < 4294967296 := by
  unfold ipv4? at h
  rw [Option.bind_eq_bind, Option.bind_eq_some_iff] at h
  obtain ⟨parts, -, h⟩ := h
  split at h
  · cases h
  · next few =>
    rw [Option.bind_eq_bind, Option.bind_eq_some_iff] at h
    obtain ⟨last, hlast, h⟩ := h
    obtain ⟨leading, rfl⟩ := List.getLast?_eq_some_iff.mp hlast
    rw [List.length_append, List.length_singleton] at few
    dsimp only at h
    rw [List.dropLast_concat] at h
    split at h
    · cases h
    · next bounds =>
      rw [Bool.or_eq_true, not_or] at bounds
      obtain ⟨bytes, rest⟩ := bounds
      rw [← Option.some.inj h]
      refine sum_lt (fun i => Nat.pow 256 (3 - i)) (by decide) (by decide) (by decide)
        (by omega) ?_ ?_
      · simpa using bytes
      · simpa using rest

theorem settled_ipv4 {a : Nat} (h : a < 4294967296) : (ipv4 a).Settled := by
  have labels : ∀ l ∈ (octets a).map (Nat.toDigits 10), Domain.FinalLabel l := by
    intro l hl
    obtain ⟨n, -, rfl⟩ := List.mem_map.mp hl
    exact finalLabel_decimal n
  have final : Domain.Final (['.'].intercalate ((octets a).map (Nat.toDigits 10))) := by
    refine Domain.final_intercalate (by simp [octets]) labels ?_
    intro c hc
    have known : c.toNat < 58 ∧ (c.toNat = 46 ∨ 48 ≤ c.toNat) := by
      rcases Text.of_mem_intercalate hc with rfl | ⟨l, hl, hc⟩
      · decide
      · obtain ⟨n, -, rfl⟩ := List.mem_map.mp hl
        have low : 48 ≤ c.toNat := (isDigit_of_mem_decimal hc).1
        have high : c.toNat ≤ 57 := (isDigit_of_mem_decimal hc).2
        omega
    exact forall_ascii (P := fun c => c.toNat < 58 ∧ (c.toNat = 46 ∨ 48 ≤ c.toNat) →
      Domain.isForbidden c = false) (by decide) (by omega) known
  have ends := endsInNumber_octets a
  have ne : ['.'].intercalate ((octets a).map (Nat.toDigits 10)) ≠ [] := by
    intro none
    rw [none] at ends
    cases ends
  refine settled_of_final final ne (toList_renderIpv4 a) ?_
  rw [ofText?_of_final final, if_neg (by simpa using ne), if_pos ends, ipv4?_octets h]

/-! ### Numbers -/

variable {base n : Nat} {cs : List Char}

theorem exists_digitChar_of_mem_toDigits (h : 1 < base) {c : Char} (hc : c ∈ Nat.toDigits base n) :
    ∃ d < base, c = d.digitChar := by
  induction n using Nat.strongRecOn with
  | _ n ih =>
    by_cases low : n < base
    · rw [Nat.toDigits_of_lt_base low] at hc
      exact ⟨n, low, List.mem_singleton.mp hc⟩
    · rw [Nat.toDigits_of_base_le h (Nat.le_of_not_lt low)] at hc
      rcases List.mem_append.mp hc with hc | hc
      · exact ih _ (Nat.div_lt_self (by omega) h) hc
      · exact ⟨n % base, Nat.mod_lt _ (by omega), List.mem_singleton.mp hc⟩

/-- What `number?` does with one digit. -/
def addDigit? (base n : Nat) (c : Char) : Option Nat := do
  let d ← Percent.hexByte? (UInt8.ofNat c.toNat)
  if d < base ∧ c.toNat < 128 then some (base * n + d) else none

theorem number?_eq (base : Nat) (cs : List Char) :
    number? base cs = cs.foldlM (addDigit? base) 0 := rfl

theorem addDigit?_digitChar (n : Nat) (small : base ≤ 16) {d : Nat} (h : d < base) :
    addDigit? base n d.digitChar = some (base * n + d) := by
  have all : ∀ d < 16, Percent.hexByte? (UInt8.ofNat d.digitChar.toNat) = some d ∧
      d.digitChar.toNat < 128 := by decide
  obtain ⟨value, ascii⟩ := all d (by omega)
  simp only [addDigit?, value, Option.bind_eq_bind, Option.bind_some, h, ascii, and_self, if_true]

/-- The digits of a number are read as that number. -/
theorem number?_toDigits (h : 1 < base) (small : base ≤ 16) (n : Nat) :
    number? base (Nat.toDigits base n) = some n := by
  rw [number?_eq]
  induction n using Nat.strongRecOn with
  | _ n ih =>
    by_cases low : n < base
    · rw [Nat.toDigits_of_lt_base low, List.foldlM_cons, addDigit?_digitChar 0 small low]
      simp
    · have digit : n % base < base := Nat.mod_lt _ (by omega)
      rw [Nat.toDigits_of_base_le h (Nat.le_of_not_lt low), List.foldlM_append,
        ih _ (Nat.div_lt_self (by omega) h)]
      have whole : base * (n / base) + n % base = n := Nat.div_add_mod n base
      simp only [Option.bind_eq_bind, Option.bind_some, List.foldlM_cons, List.foldlM_nil,
        addDigit?_digitChar _ small digit, whole, Option.pure_def]

theorem lt_of_addDigit? {start : Nat} {c : Char} (h : addDigit? base start c = some n) :
    n < base * (start + 1) := by
  rw [addDigit?, Option.bind_eq_bind, Option.bind_eq_some_iff] at h
  obtain ⟨d, -, h⟩ := h
  split at h
  · next digit =>
    cases h
    rw [Nat.mul_succ]
    omega
  · cases h

theorem lt_of_foldlM {start : Nat} (h : cs.foldlM (addDigit? base) start = some n) :
    n < base ^ cs.length * (start + 1) := by
  induction cs generalizing start with
  | nil =>
    cases h
    simp
  | cons c cs ih =>
    rw [List.foldlM_cons, Option.bind_eq_bind, Option.bind_eq_some_iff] at h
    obtain ⟨next, added, h⟩ := h
    calc n < base ^ cs.length * (next + 1) := ih h
      _ ≤ base ^ cs.length * (base * (start + 1)) := Nat.mul_le_mul_left _ (lt_of_addDigit? added)
      _ = base ^ (c :: cs).length * (start + 1) := by
        rw [List.length_cons, Nat.pow_succ, Nat.mul_assoc]

/-! ### IPv6 -/

theorem group?_toDigits (h : n < 65536) : group? (Nat.toDigits 16 n) = some n := by
  have short : (Nat.toDigits 16 n).length ≤ 4 :=
    (Nat.length_toDigits_le_iff (by decide) (by decide)).mpr h
  have some : ¬ ((Nat.toDigits 16 n).isEmpty || decide ((Nat.toDigits 16 n).length > 4)) = true := by
    simp [Nat.toDigits_ne_nil, short]
  rw [group?, if_neg some, number?_toDigits (by decide) (by decide)]

theorem lt_of_group? (h : group? cs = some n) : n < 65536 := by
  unfold group? at h
  split at h
  · cases h
  · next short =>
    have short : cs.length ≤ 4 := by simpa using (not_or.mp (mt (Bool.or_eq_true _ _).mpr short)).2
    have below := lt_of_foldlM h
    calc n < 16 ^ cs.length * (0 + 1) := below
      _ = 16 ^ cs.length := Nat.mul_one _
      _ ≤ 16 ^ 4 := Nat.pow_le_pow_right (by decide) short

variable {gs : List Nat}

theorem lt_of_tail? (h : tail? cs = some gs) : ∀ g ∈ gs, g < 65536 := by
  have byte : ∀ {part n}, tailPart? part = some n → n < 256 := by
    intro part n h
    unfold tailPart? at h
    split at h
    · cases h
    · cases h
    · obtain ⟨m, -, h⟩ := Option.bind_eq_some_iff.mp h
      split at h
      · next small =>
        cases h
        exact small
      · cases h
  unfold tail? at h
  split at h
  · next a b c d parts =>
    have bytes : ∀ n ∈ [a, b, c, d], n < 256 := by
      intro n hn
      obtain ⟨part, -, h⟩ := Domain.exists_mem_of_mapM parts hn
      exact byte h
    simp only [List.forall_mem_cons] at bytes
    cases h
    intro g hg
    simp only [List.mem_cons, List.not_mem_nil, or_false] at hg
    omega
  · cases h

theorem lt_of_groups? {dotted : Bool} {parts : List (List Char)}
    (h : groups? dotted parts = some gs) : ∀ g ∈ gs, g < 65536 := by
  fun_induction groups? dotted parts generalizing gs with
  | case1 =>
    cases h
    simp
  | case2 last n group =>
    cases h
    simpa using lt_of_group? group
  | case3 last none dotted => exact lt_of_tail? h
  | case4 => cases h
  | case5 g rest _ ih =>
    rw [Option.bind_eq_bind, Option.bind_eq_some_iff] at h
    obtain ⟨n, group, h⟩ := h
    rw [Option.bind_eq_bind, Option.bind_eq_some_iff] at h
    obtain ⟨ns, groups, h⟩ := h
    cases h
    intro m hm
    rcases List.mem_cons.mp hm with rfl | hm
    · exact lt_of_group? group
    · exact ih groups m hm

theorem lt_of_part? {dotted : Bool} (h : part? dotted cs = some gs) : ∀ g ∈ gs, g < 65536 := by
  unfold part? at h
  split at h
  · cases h
    simp
  · exact lt_of_groups? h

/-- The groups of an IPv6 address. -/
def Groups (gs : List Nat) : Prop := gs.length = 8 ∧ ∀ g ∈ gs, g < 65536

theorem groups_of_ipv6? (h : ipv6? cs = some gs) : Groups gs := by
  unfold ipv6? at h
  split at h
  · obtain ⟨all, part, h⟩ := Option.bind_eq_some_iff.mp h
    split at h
    · next eight =>
      cases h
      exact ⟨eight, lt_of_part? part⟩
    · cases h
  · rw [Option.bind_eq_bind, Option.bind_eq_some_iff] at h
    obtain ⟨before, first, h⟩ := h
    obtain ⟨after, second, h⟩ := Option.bind_eq_some_iff.mp h
    dsimp only at h
    split at h
    · next few =>
      cases h
      constructor
      · simp only [List.length_append, List.length_replicate]
        omega
      · intro g hg
        rcases List.mem_append.mp hg with hg | hg
        · rcases List.mem_append.mp hg with hg | hg
          · exact lt_of_part? first g hg
          · rw [List.eq_of_mem_replicate hg]
            decide
        · exact lt_of_part? second g hg
    · cases h

/-- Groups with colons between them. -/
def colons (gs : List Nat) : List Char := [':'].intercalate (gs.map (Nat.toDigits 16))

theorem toDigits_ne_colon : ∀ c ∈ Nat.toDigits 16 n, c ≠ ':' ∧ c ≠ '[' ∧ c ≠ ']' := by
  intro c hc
  obtain ⟨d, hd, rfl⟩ := exists_digitChar_of_mem_toDigits (by decide) hc
  have all : ∀ d < 16, d.digitChar ≠ ':' ∧ d.digitChar ≠ '[' ∧ d.digitChar ≠ ']' := by decide
  exact all d hd

theorem groups?_map (dotted : Bool) (small : ∀ g ∈ gs, g < 65536) :
    groups? dotted (gs.map (Nat.toDigits 16)) = some gs := by
  induction gs with
  | nil => rfl
  | cons g gs ih =>
    have first := group?_toDigits (small g List.mem_cons_self)
    cases gs with
    | nil => simp only [List.map_cons, List.map_nil, groups?, first]
    | cons next gs =>
      have rest := ih fun m hm => small m (List.mem_cons_of_mem g hm)
      rw [List.map_cons] at rest
      simp only [List.map_cons, groups?, first, rest, Option.bind_eq_bind, Option.bind_some]

theorem colons_plain {part : List Char} (h : part ∈ gs.map (Nat.toDigits 16)) :
    ∀ c ∈ part, (c == ':') = false := by
  intro c hc
  obtain ⟨n, -, rfl⟩ := List.mem_map.mp h
  exact beq_false_of_ne (toDigits_ne_colon c hc).1

theorem colons_cons_cons (g h : Nat) (gs : List Nat) :
    colons (g :: h :: gs) = Nat.toDigits 16 g ++ ':' :: colons (h :: gs) := by
  simp only [colons, List.map_cons, List.intercalate_cons_cons, List.append_assoc,
    List.singleton_append]

/-- Groups start with a digit. -/
theorem colons_cons (g : Nat) (gs : List Nat) : ∃ c cs, colons (g :: gs) = c :: cs ∧ c ≠ ':' := by
  have digits : ∃ c cs, Nat.toDigits 16 g = c :: cs := List.exists_cons_of_ne_nil Nat.toDigits_ne_nil
  obtain ⟨c, cs, same⟩ := digits
  have plain : c ≠ ':' := (toDigits_ne_colon (n := g) c (by rw [same]; exact List.mem_cons_self)).1
  cases gs with
  | nil => exact ⟨c, cs, by simpa [colons] using same, plain⟩
  | cons h gs => exact ⟨c, _, by rw [colons_cons_cons, same]; rfl, plain⟩

theorem part?_colons (dotted : Bool) (small : ∀ g ∈ gs, g < 65536) :
    part? dotted (colons gs) = some gs := by
  cases gs with
  | nil => rfl
  | cons g gs =>
    obtain ⟨c, cs, same, -⟩ := colons_cons g gs
    have cut : Text.pieces (· == ':') (colons (g :: gs)) = (g :: gs).map (Nat.toDigits 16) :=
      Text.pieces_intercalate rfl (by simp) fun part hpart => colons_plain hpart
    rw [part?, if_neg (by simp [same]), cut, groups?_map dotted small]

/-- A double colon is not found within characters other than colons. -/
theorem splitGap_append (plain : ∀ c ∈ cs, c ≠ ':') (rest : List Char) :
    splitGap (cs ++ rest) = (splitGap rest).map fun (a, b) => (cs ++ a, b) := by
  induction cs with
  | nil =>
    rw [List.nil_append]
    cases splitGap rest <;> rfl
  | cons c cs ih =>
    have skip : splitGap (c :: (cs ++ rest)) =
        (splitGap (cs ++ rest)).map fun (a, b) => (c :: a, b) := by
      have other := plain c List.mem_cons_self
      rw [splitGap]
      rintro rest rfl
      exact absurd rfl other
    rw [List.cons_append, skip, ih fun d hd => plain d (List.mem_cons_of_mem c hd), Option.map_map]
    rfl

/-- A double colon is not found within groups. -/
theorem splitGap_colons (gs : List Nat) (rest : List Char) :
    splitGap (colons gs ++ rest) = (splitGap rest).map fun (a, b) => (colons gs ++ a, b) := by
  induction gs with
  | nil => exact splitGap_append (by simp [colons]) rest
  | cons g gs ih =>
    have plain : ∀ c ∈ Nat.toDigits 16 g, c ≠ ':' := fun c hc => (toDigits_ne_colon c hc).1
    cases gs with
    | nil =>
      have single : colons [g] = Nat.toDigits 16 g := by simp [colons]
      rw [single]
      exact splitGap_append plain rest
    | cons h gs =>
      obtain ⟨c, cs, same, other⟩ := colons_cons h gs
      have skip : splitGap (':' :: (colons (h :: gs) ++ rest)) =
          (splitGap (colons (h :: gs) ++ rest)).map fun (a, b) => (':' :: a, b) := by
        rw [splitGap]
        intro more _ equal
        rw [same, List.cons_append] at equal
        exact other (List.cons.inj equal).1
      rw [colons_cons_cons, List.append_assoc, splitGap_append plain, List.cons_append, skip, ih,
        Option.map_map, Option.map_map]
      congr 1
      funext x
      simp [List.append_assoc]

theorem ipv6?_colons (h : Groups gs) : ipv6? (colons gs) = some gs := by
  have none : splitGap (colons gs) = none := by
    have := splitGap_colons gs []
    rwa [List.append_nil] at this
  rw [ipv6?, none]
  dsimp only
  rw [part?_colons true h.2, Option.bind_some, if_pos h.1]

/-- The best of some runs is the first one or one of the others. -/
theorem foldl_best (runs : List (Nat × Nat)) (start : Nat × Nat) :
    runs.foldl (fun best run => if run.2 > best.2 then run else best) start = start ∨
      runs.foldl (fun best run => if run.2 > best.2 then run else best) start ∈ runs := by
  induction runs generalizing start with
  | nil => exact Or.inl rfl
  | cons run runs ih =>
    rw [List.foldl_cons]
    rcases ih (if run.2 > start.2 then run else start) with same | mem
    · rw [same]
      split
      · exact Or.inr List.mem_cons_self
      · exact Or.inl rfl
    · exact Or.inr (List.mem_cons_of_mem run mem)

/-- The gap stands for at least two groups that are zero. -/
theorem gap?_spec {i n : Nat} (h : gap? gs = some (i, n)) :
    2 ≤ n ∧ gs = gs.take i ++ List.replicate n 0 ++ gs.drop (i + n) := by
  unfold gap? at h
  dsimp only at h
  split at h
  · next two =>
    rw [Option.some.inj h] at two
    refine ⟨two, ?_⟩
    have run : (i, n) ∈ (List.range gs.length).map fun i => (i, zeroRun (gs.drop i)) := by
      rcases foldl_best ((List.range gs.length).map fun i => (i, zeroRun (gs.drop i))) (0, 1) with
        same | mem
      · rw [Option.some.inj h] at same
        cases same
        exact absurd two (by decide)
      · rwa [Option.some.inj h] at mem
    obtain ⟨k, -, same⟩ := List.mem_map.mp run
    cases same
    have zeros : (gs.drop i).takeWhile (· == 0) = List.replicate (zeroRun (gs.drop i)) 0 := by
      refine List.eq_replicate_iff.mpr ⟨rfl, fun g hg => ?_⟩
      simpa using List.mem_takeWhile_imp hg
    have split : List.replicate (zeroRun (gs.drop i)) 0 ++ (gs.drop i).dropWhile (· == 0) =
        gs.drop i := by
      rw [← zeros]
      exact List.takeWhile_append_dropWhile
    have tail : gs.drop (i + zeroRun (gs.drop i)) = (gs.drop i).dropWhile (· == 0) := by
      have dropped := congrArg (List.drop (zeroRun (gs.drop i))) split
      rw [List.drop_left' List.length_replicate, List.drop_drop] at dropped
      exact dropped.symm
    rw [tail, List.append_assoc, split, List.take_append_drop]
  · cases h

theorem ipv6?_gap (h : Groups gs) {i n : Nat} (gap : gap? gs = some (i, n)) :
    ipv6? (colons (gs.take i) ++ ':' :: ':' :: colons (gs.drop (i + n))) = some gs := by
  obtain ⟨two, whole⟩ := gap?_spec gap
  have split : splitGap (colons (gs.take i) ++ ':' :: ':' :: colons (gs.drop (i + n))) =
      some (colons (gs.take i), colons (gs.drop (i + n))) := by
    rw [splitGap_colons, splitGap]
    simp
  have before : part? false (colons (gs.take i)) = some (gs.take i) :=
    part?_colons false fun g hg => h.2 g (List.mem_of_mem_take hg)
  have after : part? true (colons (gs.drop (i + n))) = some (gs.drop (i + n)) :=
    part?_colons true fun g hg => h.2 g (List.mem_of_mem_drop hg)
  have count : (gs.take i).length + n + (gs.drop (i + n)).length = 8 := by
    have length := congrArg List.length whole
    rw [h.1, List.length_append, List.length_append, List.length_replicate] at length
    exact length.symm
  have rest : 8 - ((gs.take i).length + (gs.drop (i + n)).length) = n := by omega
  rw [ipv6?, split]
  simp only [before, after, Option.bind_eq_bind, Option.bind_some, rest, ← whole]
  rw [if_pos (by omega)]

/-- The characters between the brackets. -/
def Inside (c : Char) : Prop := c = ':' ∨ ∃ d < 16, c = d.digitChar

theorem inside_of_mem_colons {c : Char} (h : c ∈ colons gs) : Inside c := by
  rcases Text.of_mem_intercalate h with colon | ⟨part, hpart, h⟩
  · exact Or.inl colon
  · obtain ⟨n, -, rfl⟩ := List.mem_map.mp hpart
    exact Or.inr (exists_digitChar_of_mem_toDigits (by decide) h)

theorem toList_colons (gs : List Nat) :
    (":".intercalate (gs.map hexadecimal)).toList = colons gs := by
  rw [String.toList_intercalate, List.map_map]
  simp [hexadecimal, colons, Function.comp_def]

/-- An IPv6 address is printed in brackets, with characters that are read as its groups. -/
theorem exists_toList_renderIpv6 (h : Groups gs) :
    ∃ inner, (renderIpv6 gs).toList = '[' :: (inner ++ [']']) ∧ ipv6? inner = some gs ∧
      ∀ c ∈ inner, Inside c := by
  unfold renderIpv6
  dsimp only
  cases gap : gap? gs with
  | none =>
    refine ⟨colons gs, ?_, ipv6?_colons h, fun c hc => inside_of_mem_colons hc⟩
    rw [String.toList_append, String.toList_append, toList_colons]
    rfl
  | some best =>
    obtain ⟨i, n⟩ := best
    refine ⟨_, ?_, ipv6?_gap h gap, ?_⟩
    · dsimp only
      simp only [String.toList_append, toList_colons, List.append_assoc]
      rfl
    · intro c hc
      rcases List.mem_append.mp hc with hc | hc
      · exact inside_of_mem_colons hc
      · rcases List.mem_cons.mp hc with rfl | hc
        · exact Or.inl rfl
        · rcases List.mem_cons.mp hc with rfl | hc
          · exact Or.inl rfl
          · exact inside_of_mem_colons hc

theorem Inside.plain {c : Char} (h : Inside c) :
    (32 < c.toNat ∧ c.toNat < 127 ∧ c ∉ "/\\?#@".toList) ∧ c ≠ '[' ∧ c ≠ ']' := by
  rcases h with rfl | ⟨d, hd, rfl⟩
  · decide
  · have all : ∀ d < 16, (32 < d.digitChar.toNat ∧ d.digitChar.toNat < 127 ∧
        d.digitChar ∉ "/\\?#@".toList) ∧ d.digitChar ≠ '[' ∧ d.digitChar ≠ ']' := by
      decide +kernel
    exact all d hd

/-- Reads an address that ends with its bracket. -/
theorem bracketed?_append {inner : List Char} (read : ipv6? inner = some gs) :
    bracketed? (inner ++ [']']) = .ok (.ipv6 gs) := by
  have backwards : (inner ++ [']']).reverse = ']' :: inner.reverse := by simp
  unfold bracketed?
  split
  · next rest same =>
    rw [backwards] at same
    cases same
    rw [List.reverse_reverse, read]
  · next other => exact absurd backwards (other inner.reverse)

theorem settled_ipv6 (h : Groups gs) : (ipv6 gs).Settled := by
  obtain ⟨inner, text, read, chars⟩ := exists_toList_renderIpv6 h
  have render : (ipv6 gs).render.toList = '[' :: (inner ++ [']']) := text
  constructor
  · rw [render, ofText?, bracketed?_append read]
  · rw [render]
    exact List.cons_ne_nil _ _
  · rw [render]
    intro c hc
    rcases List.mem_cons.mp hc with rfl | hc
    · decide
    · rcases List.mem_append.mp hc with hc | hc
      · exact (chars c hc).plain.1
      · rw [List.mem_singleton.mp hc]
        decide
  · intro rest
    rw [render, List.cons_append, splitPort, if_neg (by decide), if_pos rfl, List.append_assoc,
      List.singleton_append, splitPort_bracketed (fun c hc => (chars c hc).plain.2)]
    simp

/-! ### Hosts that were read -/

theorem settled_of_bracketed? {h : Host} (read : bracketed? cs = .ok h) : h.Settled := by
  unfold bracketed? at read
  split at read
  · split at read
    · next groups =>
      cases read
      exact settled_ipv6 (groups_of_ipv6? groups)
    · cases read
  · cases read

/-- A host that was read is printed in a form which is read as the same host. -/
theorem settled_of_ofText? {h : Host} (read : ofText? cs = .ok h) : h.Settled := by
  unfold ofText? at read
  split at read
  · exact settled_of_bracketed? read
  · split at read
    · cases read
    · next name ascii =>
      have final := Domain.final_of_toAscii? ascii
      split at read
      · cases read
      · next some =>
        split at read
        · split at read
          · next address =>
            cases read
            exact settled_ipv4 (lt_of_ipv4? address)
          · cases read
        · next worded =>
          cases read
          exact settled_domain final (by simpa using some) (Bool.eq_false_iff.mpr worded)

end Host

end ToolGateway.Url
