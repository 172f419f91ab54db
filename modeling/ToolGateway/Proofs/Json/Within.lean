import ToolGateway.Proofs.Dict
import ToolGateway.Reference.Target

/-!
# Values inside values

A value stands in another one when it is that value, or stands in one of its items or members. What
holds of scalars and texts, and of what is built from values of which it holds, holds of all values
(`Json.byParts`). The references in a value are the texts of the objects that stand in it
(`mem_references_iff`), and what a pointer leads to stands in the value where it starts
(`within_of_find?`).
-/

namespace ToolGateway

/-- A value stands somewhere in another one. -/
inductive Json.Within (v : Json) : Json → Prop
  | self : Json.Within v v
  | item {items : List Json} {w : Json} (mem : w ∈ items) (inner : Json.Within v w) :
      Json.Within v (.arr items)
  | member {members : List (String × Json)} {m : String × Json} (mem : m ∈ members)
      (inner : Json.Within v m.2) : Json.Within v (.obj ⟨members⟩)

namespace Json

/-! ### Values by their kind -/

theorem obj?_eq_some_iff {v : Json} {ms : Members} : v.obj? = some ms ↔ v = .obj ms := by
  cases v <;> simp [obj?]

theorem arr?_eq_some_iff {v : Json} {items : List Json} : v.arr? = some items ↔ v = .arr items := by
  cases v <;> simp [arr?]

theorem str?_eq_some_iff {v : Json} {text : String} : v.str? = some text ↔ v = .str text := by
  cases v <;> simp [str?]

theorem bind_obj?_eq_some_iff {v? : Option Json} {ms : Members} :
    v?.bind obj? = some ms ↔ v? = some (.obj ms) := by
  simp [Option.bind_eq_some_iff, obj?_eq_some_iff]

theorem bind_arr?_eq_some_iff {v? : Option Json} {items : List Json} :
    v?.bind arr? = some items ↔ v? = some (.arr items) := by
  simp [Option.bind_eq_some_iff, arr?_eq_some_iff]

theorem get?_eq_some_iff {v w : Json} {key : String} :
    v.get? key = some w ↔ ∃ ms, v = .obj ms ∧ ms.get? key = some w := by
  cases v <;> simp [get?]

/-! ### Values in values -/

theorem within_obj_iff {v : Json} {members : List (String × Json)} :
    v.Within (.obj ⟨members⟩) ↔ v = .obj ⟨members⟩ ∨ ∃ m ∈ members, v.Within m.2 := by
  constructor
  · rintro (_ | _ | ⟨mem, inner⟩)
    · exact Or.inl rfl
    · exact Or.inr ⟨_, mem, inner⟩
  · rintro (rfl | ⟨_, mem, inner⟩)
    · exact .self
    · exact .member mem inner

theorem within_arr_iff {v : Json} {items : List Json} :
    v.Within (.arr items) ↔ v = .arr items ∨ ∃ w ∈ items, v.Within w := by
  constructor
  · rintro (_ | ⟨mem, inner⟩ | _)
    · exact Or.inl rfl
    · exact Or.inr ⟨_, mem, inner⟩
  · rintro (rfl | ⟨_, mem, inner⟩)
    · exact .self
    · exact .item mem inner

theorem within_str_iff {v : Json} {text : String} : v.Within (.str text) ↔ v = .str text := by
  constructor
  · rintro ⟨⟩
    rfl
  · rintro rfl
    exact .self

theorem Within.trans {u v w : Json} (huv : u.Within v) (hvw : v.Within w) : u.Within w := by
  induction hvw with
  | self => exact huv
  | item mem _ ih => exact .item mem ih
  | member mem _ ih => exact .member mem ih

theorem sizeOf_lt_of_mem_members {members : List (String × Json)} {m : String × Json}
    (h : m ∈ members) : sizeOf m.2 < sizeOf (Json.obj ⟨members⟩) := by
  have := List.sizeOf_lt_of_mem h
  obtain ⟨k, w⟩ := m
  simp only [Prod.mk.sizeOf_spec] at this
  simp only [obj.sizeOf_spec, Dict.mk.sizeOf_spec]
  omega

theorem sizeOf_lt_of_get? {ms : Members} {key : String} {v : Json} (h : ms.get? key = some v) :
    sizeOf v < sizeOf (Json.obj ms) := by
  have := Dict.sizeOf_get?_lt h
  simp only [obj.sizeOf_spec]
  omega

theorem sizeOf_lt_of_mem_items {items : List Json} {v : Json} (h : v ∈ items) :
    sizeOf v < sizeOf (Json.arr items) := by
  have := List.sizeOf_lt_of_mem h
  simp only [arr.sizeOf_spec]
  omega

/-! ### Induction -/

/-- A value that has no parts and is no text. -/
def IsScalar : Json → Prop
  | .null | .bool _ | .int _ | .float _ => True
  | .str _ | .arr _ | .obj _ => False

/-- Induction over a value, in which every item of an array and every member of an object is known
to have the property. -/
@[elab_as_elim]
theorem byParts {motive : Json → Prop} (scalar : ∀ v, v.IsScalar → motive v)
    (str : ∀ s, motive (.str s)) (arr : ∀ items, (∀ v ∈ items, motive v) → motive (.arr items))
    (obj : ∀ members, (∀ m ∈ members, motive m.2) → motive (.obj ⟨members⟩)) : ∀ v, motive v
  | .null => scalar _ trivial
  | .bool _ => scalar _ trivial
  | .int _ => scalar _ trivial
  | .float _ => scalar _ trivial
  | .str s => str s
  | .arr items => arr items fun v _ => byParts scalar str arr obj v
  | .obj ⟨members⟩ => obj members fun m _ => byParts scalar str arr obj m.2
termination_by v => sizeOf v
decreasing_by
  · exact sizeOf_lt_of_mem_items ‹_›
  · exact sizeOf_lt_of_mem_members ‹_›

/-! ### Texts in values -/

section Texts

variable {P : String → Prop}

theorem forall_text_of_isScalar {v : Json} (h : v.IsScalar) :
    ∀ s, (Json.str s).Within v → P s := by
  intro s within
  cases within with
  | self | item _ _ | member _ _ => exact h.elim

theorem forall_text_str_iff {text : String} :
    (∀ s, (Json.str s).Within (.str text) → P s) ↔ P text := by
  constructor
  · intro h
    exact h text .self
  · intro h s within
    cases within_str_iff.mp within
    exact h

theorem forall_text_arr_iff {items : List Json} :
    (∀ s, (Json.str s).Within (.arr items) → P s) ↔
      ∀ v ∈ items, ∀ s, (Json.str s).Within v → P s := by
  constructor
  · intro h v hv s within
    exact h s (.item hv within)
  · intro h s within
    cases within with
    | item hv inner => exact h _ hv s inner

theorem forall_text_obj_iff {members : List (String × Json)} :
    (∀ s, (Json.str s).Within (.obj ⟨members⟩) → P s) ↔
      ∀ m ∈ members, ∀ s, (Json.str s).Within m.2 → P s := by
  constructor
  · intro h m hm s within
    exact h s (.member hm within)
  · intro h s within
    cases within with
    | member hm inner => exact h _ hm s inner

end Texts

/-! ### References -/

theorem mem_itemReferences_iff {items : List Json} {r : String} :
    r ∈ itemReferences items ↔ ∃ v ∈ items, r ∈ v.references := by
  induction items with
  | nil => simp [itemReferences]
  | cons v items ih => simp [itemReferences, ih]

theorem mem_memberReferences_iff {members : List (String × Json)} {r : String} :
    r ∈ memberReferences members ↔ ∃ m ∈ members, r ∈ m.2.references := by
  induction members with
  | nil => simp [memberReferences]
  | cons m members ih => simp [memberReferences, ih]

theorem mem_references_obj_iff {members : List (String × Json)} {r : String} :
    r ∈ (Json.obj ⟨members⟩).references ↔
      referenceOf? members = some r ∨ ∃ m ∈ members, r ∈ m.2.references := by
  rw [references, List.mem_append, Option.mem_toList, mem_memberReferences_iff]

theorem mem_references_arr_iff {items : List Json} {r : String} :
    r ∈ (Json.arr items).references ↔ ∃ v ∈ items, r ∈ v.references := by
  rw [references, mem_itemReferences_iff]

theorem mem_references_of_within {v w : Json} (h : v.Within w) {r : String}
    (hr : r ∈ v.references) : r ∈ w.references := by
  induction h with
  | self => exact hr
  | item mem _ ih => exact mem_references_arr_iff.mpr ⟨_, mem, ih⟩
  | member mem _ ih => exact mem_references_obj_iff.mpr (Or.inr ⟨_, mem, ih⟩)

/-- A text is a reference in a value when it is that of an object that stands in the value. -/
theorem exists_within_of_mem_references (v : Json) {r : String} (h : r ∈ v.references) :
    ∃ members, (Json.obj ⟨members⟩).Within v ∧ referenceOf? members = some r := by
  induction v using byParts with
  | scalar v plain =>
    cases v with
    | str _ | arr _ | obj _ => exact plain.elim
    | _ => simp [references] at h
  | str s => simp [references] at h
  | arr items ih =>
    obtain ⟨w, hw, h⟩ := mem_references_arr_iff.mp h
    obtain ⟨inner, within, hr⟩ := ih w hw h
    exact ⟨inner, .item hw within, hr⟩
  | obj members ih =>
    rcases mem_references_obj_iff.mp h with h | ⟨m, hm, h⟩
    · exact ⟨members, .self, h⟩
    · obtain ⟨inner, within, hr⟩ := ih m hm h
      exact ⟨inner, .member hm within, hr⟩

theorem mem_references_iff {v : Json} {r : String} :
    r ∈ v.references ↔
      ∃ members, (Json.obj ⟨members⟩).Within v ∧ referenceOf? members = some r := by
  constructor
  · exact exists_within_of_mem_references v
  · rintro ⟨members, within, h⟩
    exact mem_references_of_within within (mem_references_obj_iff.mpr (Or.inl h))

end Json

/-! ### Pointers -/

namespace Pointer

theorem within_of_child? {v w : Json} {step : String} (h : child? v step = some w) :
    w.Within v := by
  unfold child? at h
  split at h
  · next ms =>
    obtain ⟨members⟩ := ms
    exact .member (Dict.mem_of_lookup h) .self
  · next items =>
    obtain ⟨i, -, h⟩ := Option.bind_eq_some_iff.mp h
    exact .item (List.mem_of_getElem? h) .self
  · cases h

theorem within_of_follow {steps : List String} {v w : Json} (h : follow v steps = some w) :
    w.Within v := by
  induction steps generalizing v with
  | nil =>
    cases h
    exact .self
  | cons step steps ih =>
    rw [follow, List.foldlM_cons] at h
    obtain ⟨u, hu, h⟩ := Option.bind_eq_some_iff.mp h
    exact (ih h).trans (within_of_child? hu)

theorem within_of_find? {v w : Json} {pointer : String} (h : find? v pointer = some w) :
    w.Within v := by
  obtain ⟨steps, -, h⟩ := Option.bind_eq_some_iff.mp h
  exact within_of_follow h

end Pointer

end ToolGateway
