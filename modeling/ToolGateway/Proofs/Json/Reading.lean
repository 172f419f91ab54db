import ToolGateway.Json.Reader
import ToolGateway.Proofs.Json.Distinct

/-!
# What a JSON text is read as

A machine builds a value from what the tokens of a text carry: scalars, and texts that are shorter
than the one they stand in (`Token.carries_of_scan`). So a property that is kept when arrays and
objects are built (`Hereditary`) holds of a value that is read if it holds of those
(`holds_of_parse?`): the value repeats no key, and the texts in it are shorter than the one that is
read.
-/

namespace ToolGateway.Json

variable {P : Json → Prop}

/-! ### Tokens -/

namespace Token

/-- What a token may carry: a scalar, or a text that is shorter than a number. -/
def Carries (n : Nat) : Token → Prop
  | .scalar v => v.IsScalar
  | .text s => s.length < n
  | _ => True

theorem Carries.mono {m n : Nat} {t : Token} (h : t.Carries m) (le : m ≤ n) : t.Carries n := by
  cases t with
  | text s => exact Nat.lt_of_lt_of_le h le
  | scalar v => exact h
  | _ => trivial

theorem isScalar_of_value? {n : Numeral} {v : Json} (h : n.value? = some v) : v.IsScalar := by
  rw [Numeral.value?] at h
  dsimp only at h
  split at h
  · split at h
    · cases h
      trivial
    · obtain ⟨x, -, rfl⟩ := Option.map_eq_some_iff.mp h
      trivial
  · obtain ⟨x, -, rfl⟩ := Option.map_eq_some_iff.mp h
    trivial

/-- Every character of a text takes at least one, and so does the quote after it. -/
theorem length_of_string? {lead : Option Nat} {acc cs text rest : List Char}
    (h : string? lead acc cs = some (text, rest)) :
    text.length + rest.length < acc.length + cs.length := by
  fun_induction string? lead acc cs <;> simp_all <;> omega

theorem carries_of_read? {c : Char} {rest r : List Char} {t : Token}
    (h : read? c rest = some (t, r)) : t.Carries rest.length := by
  unfold read? at h
  split at h
  case h_7 =>
    obtain ⟨⟨acc, r'⟩, hs, h⟩ := Option.map_eq_some_iff.mp h
    cases h
    have := length_of_string? hs
    show (String.ofList acc.reverse).length < rest.length
    rw [String.length_ofList, List.length_reverse]
    simp only [List.length_nil] at this
    omega
  case h_8 | h_9 | h_10 =>
    obtain ⟨_, -, h⟩ := Option.map_eq_some_iff.mp h
    cases h
    trivial
  case h_11 =>
    obtain ⟨n, -, h⟩ := Option.bind_eq_some_iff.mp h
    obtain ⟨v, hv, h⟩ := Option.map_eq_some_iff.mp h
    cases h
    exact isScalar_of_value? hv
  all_goals
    cases h
    trivial

theorem carries_of_scanOnto {acc ts : List Token} {cs : List Char} {n : Nat}
    (h : scanOnto acc cs = some ts) (ha : ∀ t ∈ acc, t.Carries n) (bound : cs.length ≤ n) :
    ∀ t ∈ ts, t.Carries n := by
  fun_induction scanOnto acc cs with
  | case1 acc =>
    cases h
    exact ha
  | case2 acc c rest _ ih => exact ih h ha (Nat.le_of_succ_le bound)
  | case3 => cases h
  | case4 acc c rest _ t r hr ih =>
    have shorter : rest.length ≤ n := Nat.le_of_succ_le bound
    apply ih h
    · exact List.forall_mem_cons.mpr ⟨(carries_of_read? hr).mono shorter, ha⟩
    · exact Nat.le_trans (length_read?_le hr) shorter

/-- The tokens of a text carry scalars and shorter texts. -/
theorem carries_of_scan {text : String} {ts : List Token} (h : scan text = some ts) :
    ∀ t ∈ ts, t.Carries text.length := by
  obtain ⟨acc, hs, rfl⟩ := Option.map_eq_some_iff.mp h
  intro t ht
  have none : ∀ t ∈ ([] : List Token), t.Carries text.length := fun _ h => nomatch h
  exact carries_of_scanOnto hs none (Nat.le_of_eq String.length_toList) t (List.mem_reverse.mp ht)

/-- What a token carries has a property. -/
def Holds (P : Json → Prop) : Token → Prop
  | .scalar v => P v
  | .text s => P (.str s)
  | _ => True

end Token

/-! ### The machine -/

/-- A property that is kept when arrays and objects are built. -/
structure Hereditary (P : Json → Prop) : Prop where
  arr : ∀ {items : List Json}, (∀ v ∈ items, P v) → P (.arr items)
  empty : P (.obj .empty)
  insert : ∀ {d : Members} {k : String} {v : Json}, P (.obj d) → P v → P (.obj (d.insert k v))

/-- What an open bracket has gathered has a property. -/
def Frame.Holds (P : Json → Prop) : Frame → Prop
  | .array done => ∀ v ∈ done, P v
  | .object done _ => P (.obj done)

/-- What is held until the next token has a property. -/
def Expected.Holds (P : Json → Prop) : Expected → Prop
  | .keyOrEnd done | .key done => P (.obj done)
  | .nothing v => P v
  | _ => True

namespace Reading

/-- All that a reading has gathered has a property. -/
structure Holds (P : Json → Prop) (r : Reading) : Prop where
  frames : ∀ f ∈ r.frames, f.Holds P
  expected : r.expected.Holds P

theorem holds_start : start.Holds P := ⟨fun _ hf => (nomatch hf), trivial⟩

theorem holds_supply (hereditary : Hereditary P) {v : Json} {fs : List Frame} (hv : P v)
    (hf : ∀ f ∈ fs, f.Holds P) : (supply v fs).Holds P := by
  match fs with
  | [] => exact ⟨hf, hv⟩
  | .array done :: fs =>
    obtain ⟨first, others⟩ := List.forall_mem_cons.mp hf
    exact ⟨List.forall_mem_cons.mpr ⟨List.forall_mem_cons.mpr ⟨hv, first⟩, others⟩, trivial⟩
  | .object done key :: fs =>
    obtain ⟨first, others⟩ := List.forall_mem_cons.mp hf
    exact ⟨List.forall_mem_cons.mpr ⟨hereditary.insert first hv, others⟩, trivial⟩

theorem holds_begin? (hereditary : Hereditary P) {maxDepth : Option Nat} {fs : List Frame}
    {t : Token} {r : Reading} (h : begin? maxDepth fs t = some r) (hf : ∀ f ∈ fs, f.Holds P)
    (ht : t.Holds P) : r.Holds P := by
  unfold begin? at h
  split at h
  · split at h <;> cases h
    exact ⟨List.forall_mem_cons.mpr ⟨fun _ hv => (nomatch hv), hf⟩, trivial⟩
  · split at h <;> cases h
    exact ⟨List.forall_mem_cons.mpr ⟨hereditary.empty, hf⟩, hereditary.empty⟩
  · cases h
    exact holds_supply hereditary ht hf
  · cases h
    exact holds_supply hereditary ht hf
  · cases h

/-- A step of the machine keeps the property. -/
theorem holds_step? (hereditary : Hereditary P) {maxDepth : Option Nat} {r r' : Reading} {t : Token}
    (h : step? maxDepth r t = some r') (hr : r.Holds P) (ht : t.Holds P) : r'.Holds P := by
  obtain ⟨fs, e⟩ := r
  obtain ⟨hf, he⟩ := hr
  have array : ∀ {done : List Json} {fs : List Frame}, (∀ f ∈ Frame.array done :: fs, f.Holds P) →
      (supply (.arr done.reverse) fs).Holds P := by
    intro done fs hf
    obtain ⟨first, others⟩ := List.forall_mem_cons.mp hf
    have items : P (.arr done.reverse) :=
      hereditary.arr fun v hv => first v (List.mem_reverse.mp hv)
    exact holds_supply hereditary items others
  have others : ∀ {f : Frame} {fs : List Frame}, (∀ g ∈ f :: fs, g.Holds P) →
      ∀ g ∈ fs, g.Holds P := fun hf => (List.forall_mem_cons.mp hf).2
  unfold step? at h
  dsimp only at h hf he
  split at h
  next => exact holds_begin? hereditary h hf ht
  next => cases h; exact array hf
  next => exact holds_begin? hereditary h hf ht
  next => cases h; exact holds_supply hereditary he (others hf)
  next => cases h; exact ⟨List.forall_mem_cons.mpr ⟨he, others hf⟩, trivial⟩
  next => cases h; exact ⟨List.forall_mem_cons.mpr ⟨he, others hf⟩, trivial⟩
  next => cases h; exact ⟨hf, trivial⟩
  next => cases h; exact ⟨hf, trivial⟩
  next => cases h; exact array hf
  next => cases h; exact ⟨hf, (List.forall_mem_cons.mp hf).1⟩
  next => cases h; exact holds_supply hereditary (List.forall_mem_cons.mp hf).1 (others hf)
  next => cases h

theorem holds_foldlM (hereditary : Hereditary P) {maxDepth : Option Nat} {ts : List Token}
    {r r' : Reading} (h : ts.foldlM (step? maxDepth) r = some r') (hr : r.Holds P)
    (ht : ∀ t ∈ ts, t.Holds P) : r'.Holds P := by
  induction ts generalizing r with
  | nil =>
    cases h
    exact hr
  | cons t ts ih =>
    rw [List.foldlM_cons] at h
    obtain ⟨r₁, hstep, h⟩ := Option.bind_eq_some_iff.mp h
    obtain ⟨first, others⟩ := List.forall_mem_cons.mp ht
    exact ih h (holds_step? hereditary hstep hr first) others

end Reading

/-- A property that is kept when arrays and objects are built holds of a value that is read, if it
holds of scalars and of the texts that are shorter than the one that is read. -/
theorem holds_of_parse? (hereditary : Hereditary P) {text : String} {v : Json}
    (h : parse? text = some v) (scalars : ∀ w : Json, w.IsScalar → P w)
    (texts : ∀ s : String, s.length < text.length → P (.str s)) : P v := by
  obtain ⟨ts, hts, h⟩ := Option.bind_eq_some_iff.mp h
  obtain ⟨r, hr, h⟩ := Option.bind_eq_some_iff.mp h
  have tokens : ∀ t ∈ ts, t.Holds P := by
    intro t ht
    have carried := Token.carries_of_scan hts t ht
    cases t with
    | scalar w => exact scalars w carried
    | text s => exact texts s carried
    | _ => trivial
  have holds := Reading.holds_foldlM hereditary hr Reading.holds_start tokens
  unfold Reading.result? at h
  split at h
  · next he =>
    cases h
    have expected := holds.expected
    rw [he] at expected
    exact expected
  · cases h

/-! ### Values that are read -/

theorem hereditary_distinct : Hereditary Json.Distinct where
  arr := distinct_arr_iff.mpr
  empty := distinct_empty
  insert := Distinct.insert

/-- A JSON text is read as a value that repeats no key. -/
theorem distinct_of_parse? {text : String} {v : Json} (h : parse? text = some v) :
    v.Distinct :=
  holds_of_parse? hereditary_distinct h (fun _ => distinct_of_isScalar) fun s _ => distinct_str s

/-- The texts in a value are shorter than a number. -/
def Shorter (n : Nat) (v : Json) : Prop := ∀ s, (Json.str s).Within v → s.length < n

theorem shorter_arr_iff {n : Nat} {items : List Json} :
    (Json.arr items).Shorter n ↔ ∀ v ∈ items, v.Shorter n :=
  forall_text_arr_iff

theorem shorter_obj_iff {n : Nat} {members : List (String × Json)} :
    (Json.obj ⟨members⟩).Shorter n ↔ ∀ m ∈ members, m.2.Shorter n :=
  forall_text_obj_iff

theorem hereditary_shorter (n : Nat) : Hereditary (Shorter n) where
  arr := shorter_arr_iff.mpr
  empty := shorter_obj_iff.mpr fun _ hm => nomatch hm
  insert := by
    intro d k v hd hv
    refine shorter_obj_iff.mpr fun m hm => ?_
    rcases Dict.mem_put hm with rfl | hm
    · exact hv
    · exact shorter_obj_iff.mp hd m hm

/-- The texts in a value are shorter than the text that the value is read from. -/
theorem shorter_of_parse? {text : String} {v : Json} (h : parse? text = some v) :
    v.Shorter text.length := by
  apply holds_of_parse? (hereditary_shorter text.length) h
  · intro w scalar
    exact forall_text_of_isScalar scalar
  · intro s short
    exact forall_text_str_iff.mpr short

end ToolGateway.Json
