import ToolGateway.Exchange.Correction
import ToolGateway.Proofs.Json.Reading
import ToolGateway.Proofs.Text.Pieces

/-!
# Correcting once is enough

To correct a value is to put the corrected value in place of each text that holds one, and to leave
all else alone (`Unwraps`). The texts in a value are shorter than the text that the value is read
from (`shorter_of_inner?`), so this comes to an end, always with the same value
(`unwraps_unwrap`, `Unwraps.unique`). No text is left that holds a value, so there is nothing to
correct in what was corrected (`correct?_spec`).
-/

namespace ToolGateway

namespace Correction

variable {s : String} {u v w : Json}

/-- The value in a text has texts that are shorter than the text. -/
theorem shorter_of_inner? (h : inner? s = some v) : v.Shorter s.length := by
  unfold inner? at h
  dsimp only at h
  split at h
  · intro t within
    exact Nat.lt_of_lt_of_le (Json.shorter_of_parse? h t within) (Text.length_trim_le s)
  · cases h

theorem distinct_of_inner? (h : inner? s = some v) : v.Distinct := by
  unfold inner? at h
  dsimp only at h
  split at h
  · exact Json.distinct_of_parse? h
  · cases h

/-! ### Corrections -/

/-- What a value becomes when every text that holds a value gives way to what that value becomes.
Nothing else changes: the members and the items stay in their places, and so do all other texts and
the scalars. -/
inductive Unwraps : Json → Json → Prop
  | held {s : String} {v w : Json} (value : inner? s = some v) (later : Unwraps v w) :
      Unwraps (.str s) w
  | text {s : String} (plain : inner? s = none) : Unwraps (.str s) (.str s)
  | scalar {v : Json} (plain : v.IsScalar) : Unwraps v v
  | arr {items : List Json} {f : Json → Json} (each : ∀ v ∈ items, Unwraps v (f v)) :
      Unwraps (.arr items) (.arr (items.map f))
  | obj {members : List (String × Json)} {f : Json → Json}
      (each : ∀ m ∈ members, Unwraps m.2 (f m.2)) :
      Unwraps (.obj ⟨members⟩) (.obj ⟨members.map fun m => (m.1, f m.2)⟩)

/-- No text in a value, at any depth, holds a value. -/
def IsUnwrapped (v : Json) : Prop := ∀ s, (Json.str s).Within v → inner? s = none

theorem isUnwrapped_arr_iff {items : List Json} :
    IsUnwrapped (.arr items) ↔ ∀ v ∈ items, IsUnwrapped v :=
  Json.forall_text_arr_iff

theorem isUnwrapped_obj_iff {members : List (String × Json)} :
    IsUnwrapped (.obj ⟨members⟩) ↔ ∀ m ∈ members, IsUnwrapped m.2 :=
  Json.forall_text_obj_iff

theorem isUnwrapped_str_iff : IsUnwrapped (.str s) ↔ inner? s = none :=
  Json.forall_text_str_iff

theorem isUnwrapped_of_isScalar (h : v.IsScalar) : IsUnwrapped v :=
  Json.forall_text_of_isScalar h

namespace Unwraps

/-- A value has one correction at most. -/
theorem unique (h : Unwraps u v) (h' : Unwraps u w) : v = w := by
  induction h generalizing w with
  | held value _ ih =>
    cases h' with
    | held value' later' =>
      cases value.symm.trans value'
      exact ih later'
    | text plain' => cases value.symm.trans plain'
    | scalar plain' => exact plain'.elim
  | text plain =>
    cases h' with
    | held value' _ => cases plain.symm.trans value'
    | text _ => rfl
    | scalar _ => rfl
  | scalar plain =>
    cases h' with
    | scalar _ => rfl
    | held _ _ | text _ | arr _ | obj _ => exact plain.elim
  | arr _ ih =>
    cases h' with
    | arr each' => rw [List.map_congr_left fun v hv => ih v hv (each' v hv)]
    | scalar plain' => exact plain'.elim
  | @obj members f _ ih =>
    cases h' with
    | @obj _ g each' =>
      have same : members.map (fun m => (m.1, f m.2)) = members.map fun m => (m.1, g m.2) :=
        List.map_congr_left fun m hm => congrArg (m.1, ·) (ih m hm (each' m hm))
      rw [same]
    | scalar plain' => exact plain'.elim

/-- No text that holds a value is left. -/
theorem isUnwrapped (h : Unwraps v w) : IsUnwrapped w := by
  induction h with
  | held _ _ ih => exact ih
  | text plain => exact isUnwrapped_str_iff.mpr plain
  | scalar plain => exact isUnwrapped_of_isScalar plain
  | arr _ ih => exact isUnwrapped_arr_iff.mpr (List.forall_mem_map.mpr ih)
  | obj _ ih => exact isUnwrapped_obj_iff.mpr (List.forall_mem_map.mpr ih)

/-- Where no text holds a value, nothing changes. -/
theorem of_isUnwrapped (h : IsUnwrapped v) : Unwraps v v := by
  induction v using Json.byParts with
  | scalar v plain => exact .scalar plain
  | str s => exact .text (isUnwrapped_str_iff.mp h)
  | arr items ih =>
    have each := Unwraps.arr (f := id) fun v hv => ih v hv (isUnwrapped_arr_iff.mp h v hv)
    rwa [List.map_id] at each
  | obj members ih =>
    have each := Unwraps.obj (f := id) fun m hm => ih m hm (isUnwrapped_obj_iff.mp h m hm)
    have same : members.map (fun m => (m.1, id m.2)) = members := List.map_id members
    rwa [same] at each

/-- A correction makes no longer texts. -/
theorem shorter (h : Unwraps v w) {n : Nat} (bound : v.Shorter n) : w.Shorter n := by
  induction h with
  | held value _ ih =>
    apply ih
    intro t within
    exact Nat.lt_trans (shorter_of_inner? value t within) (bound _ .self)
  | text _ | scalar _ => exact bound
  | arr _ ih =>
    apply Json.shorter_arr_iff.mpr
    exact List.forall_mem_map.mpr fun v hv => ih v hv (Json.shorter_arr_iff.mp bound v hv)
  | obj _ ih =>
    apply Json.shorter_obj_iff.mpr
    exact List.forall_mem_map.mpr fun m hm => ih m hm (Json.shorter_obj_iff.mp bound m hm)

/-- A correction repeats no key when the value does not. -/
theorem distinct (h : Unwraps v w) (hv : v.Distinct) : w.Distinct := by
  induction h with
  | held value _ ih => exact ih (distinct_of_inner? value)
  | text _ | scalar _ => exact hv
  | arr _ ih =>
    rw [Json.distinct_arr_iff] at hv ⊢
    exact List.forall_mem_map.mpr fun v mem => ih v mem (hv v mem)
  | obj _ ih =>
    rw [Json.distinct_obj_iff] at hv ⊢
    refine ⟨?_, List.forall_mem_map.mpr fun m mem => ih m mem (hv.2 m mem)⟩
    rw [List.map_map]
    exact hv.1

/-- A correction is another value where there is something to correct. -/
theorem isUnwrapped_of_same (h : Unwraps v w) (hv : v.Distinct) (same : w.same v = true) :
    IsUnwrapped v := by
  induction h with
  | @held s v w value later _ =>
    -- A text cannot give way to itself, since all texts in its value are shorter.
    have text : w = .str s := by
      cases w with
      | str t => exact congrArg Json.str (eq_of_beq same)
      | _ => simp [Json.same] at same
    have short : s.length < s.length :=
      later.shorter (shorter_of_inner? value) s (text ▸ .self)
    exact absurd short (Nat.lt_irrefl _)
  | text plain => exact isUnwrapped_str_iff.mpr plain
  | scalar plain => exact isUnwrapped_of_isScalar plain
  | arr _ ih =>
    rw [Json.same, Json.sameItems_iff, List.forall₂_map_left_iff, List.forall₂_same] at same
    apply isUnwrapped_arr_iff.mpr
    intro v mem
    exact ih v mem (Json.distinct_arr_iff.mp hv v mem) (same v mem)
  | @obj members f _ ih =>
    rw [Json.same, Bool.and_eq_true, Json.sameMembers_iff] at same
    apply isUnwrapped_obj_iff.mpr
    intro m mem
    obtain ⟨u, found, equal⟩ := same.2 (m.1, f m.2) (List.mem_map_of_mem mem)
    have there : Dict.get? ⟨members⟩ m.1 = some m.2 := Dict.lookup_of_mem hv.keys mem
    rw [there] at found
    cases found
    exact ih m mem (hv.member mem) equal

end Unwraps

/-! ### The correction that is computed -/

theorem mapItems_eq (f : String → Json) (items : List Json) :
    mapItems f items = items.map (mapStrings f) := by
  induction items with
  | nil => rfl
  | cons v items ih => rw [mapItems, ih, List.map_cons]

theorem mapMembers_eq (f : String → Json) (members : List (String × Json)) :
    mapMembers f members = members.map fun m => (m.1, mapStrings f m.2) := by
  induction members with
  | nil => rfl
  | cons m members ih => rw [mapMembers, ih, List.map_cons]

theorem longest_le_longestItem {items : List Json} (h : v ∈ items) :
    longest v ≤ longestItem items := by
  induction items with
  | nil => cases h
  | cons u items ih =>
    rw [longestItem]
    rcases List.mem_cons.mp h with rfl | h
    · exact Nat.le_max_left _ _
    · exact Nat.le_trans (ih h) (Nat.le_max_right _ _)

theorem longest_le_longestMember {members : List (String × Json)} {m : String × Json}
    (h : m ∈ members) : longest m.2 ≤ longestMember members := by
  induction members with
  | nil => cases h
  | cons u members ih =>
    rw [longestMember]
    rcases List.mem_cons.mp h with rfl | h
    · exact Nat.le_max_left _ _
    · exact Nat.le_trans (ih h) (Nat.le_max_right _ _)

theorem length_le_longest (h : (Json.str s).Within v) : s.length ≤ longest v := by
  induction h with
  | self => exact Nat.le_refl _
  | item mem _ ih => exact Nat.le_trans ih (longest_le_longestItem mem)
  | member mem _ ih => exact Nat.le_trans ih (longest_le_longestMember mem)

theorem unwraps_mapStrings {f : String → Json}
    (h : ∀ s, (Json.str s).Within v → Unwraps (.str s) (f s)) : Unwraps v (mapStrings f v) := by
  induction v using Json.byParts with
  | scalar v plain =>
    have same : mapStrings f v = v := by
      cases v with
      | str _ | arr _ | obj _ => exact plain.elim
      | _ => rfl
    rw [same]
    exact .scalar plain
  | str s => exact h s .self
  | arr items ih =>
    rw [mapStrings, mapItems_eq]
    exact .arr fun v hv => ih v hv fun s within => h s (.item hv within)
  | obj members ih =>
    rw [mapStrings, mapMembers_eq]
    exact .obj fun m hm => ih m hm fun s within => h s (.member hm within)

/-- As many rounds as the texts are long are enough. The induction is on the rounds: the texts in
the value of a text are shorter, and the empty text holds no value. -/
theorem unwraps_unwrapWithin {n : Nat} (bound : ∀ s, (Json.str s).Within v → s.length ≤ n) :
    Unwraps v (unwrapWithin n v) := by
  induction n generalizing v with
  | zero =>
    apply Unwraps.of_isUnwrapped
    intro s within
    have empty : s = "" := String.length_eq_zero_iff.mp (Nat.le_zero.mp (bound s within))
    rw [empty]
    decide
  | succ n ih =>
    apply unwraps_mapStrings
    intro s within
    cases value : inner? s with
    | none => exact .text value
    | some u =>
      apply Unwraps.held value
      apply ih
      intro t inner
      have short := shorter_of_inner? value t inner
      have := bound s within
      omega

theorem unwraps_unwrap (v : Json) : Unwraps v (unwrap v) :=
  unwraps_unwrapWithin fun _ => length_le_longest

theorem same_unwrap_iff (distinct : v.Distinct) :
    (unwrap v).same v = true ↔ IsUnwrapped v := by
  constructor
  · intro same
    exact (unwraps_unwrap v).isUnwrapped_of_same distinct same
  · intro h
    rw [(unwraps_unwrap v).unique (.of_isUnwrapped h)]
    exact distinct.same_self

/-- There is nothing to correct exactly when no text holds a value. -/
theorem correct?_eq_none_iff (distinct : v.Distinct) : correct? v = none ↔ IsUnwrapped v := by
  rw [← same_unwrap_iff distinct]
  simp [correct?]

theorem eq_unwrap_of_correct? (h : correct? v = some w) : w = unwrap v := by
  simp only [correct?] at h
  split at h
  · cases h
  · cases h
    rfl

/-- The correction of a value always comes to an end, with one result. What is given as corrected
is that result: no text in it holds a value, at any depth, and it is not corrected again. Nothing is
given exactly when no text in the value holds one. Members are compared by their keys, so the value
must repeat none, as is so of all that is read (`Json.distinct_of_parse?`). -/
theorem correct?_spec (distinct : v.Distinct) :
    (∀ w, Unwraps v w ↔ w = unwrap v) ∧
    (∀ w, correct? v = some w → Unwraps v w ∧ IsUnwrapped w ∧ correct? w = none) ∧
    (correct? v = none ↔ IsUnwrapped v) := by
  have run := unwraps_unwrap v
  refine ⟨fun w => ⟨fun h => h.unique run, ?_⟩, fun w h => ?_, correct?_eq_none_iff distinct⟩
  · rintro rfl
    exact run
  · rw [eq_unwrap_of_correct? h]
    exact ⟨run, run.isUnwrapped, (correct?_eq_none_iff (run.distinct distinct)).mpr run.isUnwrapped⟩

/-- A value with a text that holds a list, in which another text holds an object, beside a text that
only looks like an object. -/
def wrapped : Json := .object [("a", .str "[1, \x7b\"b\": \"\x7b\x7d\"\x7d]"),
  ("plain", .str "\x7bnot json\x7d"), ("n", .int 1)]

def unwrapped : Json := .object [("a", .arr [.int 1, .object [("b", .object [])]]),
  ("plain", .str "\x7bnot json\x7d"), ("n", .int 1)]

theorem distinct_wrapped : wrapped.Distinct := by
  apply Json.distinct_obj_iff.mpr
  refine ⟨by decide, fun m hm => ?_⟩
  simp only [List.mem_cons, List.not_mem_nil, or_false] at hm
  rcases hm with rfl | rfl | rfl
  · exact Json.distinct_str _
  · exact Json.distinct_str _
  · exact Json.distinct_of_isScalar trivial

/-- The statement for a text in a text. -/
theorem correct?_spec_wrapped : wrapped.Distinct ∧
    ∃ w, correct? wrapped = some w ∧ w.same unwrapped = true ∧ Unwraps wrapped w ∧
      IsUnwrapped w ∧ correct? w = none := by
  have result : (correct? wrapped).any (·.same unwrapped) = true := by decide +kernel
  cases found : correct? wrapped with
  | none =>
    rw [found] at result
    cases result
  | some w =>
    rw [found] at result
    obtain ⟨run, bare, done⟩ := (correct?_spec distinct_wrapped).2.1 w found
    exact ⟨distinct_wrapped, w, rfl, result, run, bare, done⟩

end Correction

end ToolGateway
