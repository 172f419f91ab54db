import ToolGateway.Proofs.Json.Equality
import ToolGateway.Proofs.Json.Within

/-!
# Values that repeat no key

No object in the value has two members of one key. Setting, replacing and removing members keeps
that, and it is what makes look-ups and members say the same.
-/

namespace ToolGateway.Json

/-- No object that stands in the value repeats a key. -/
def Distinct (v : Json) : Prop :=
  ∀ members, (Json.obj ⟨members⟩).Within v → (members.map (·.1)).Nodup

theorem Distinct.of_within {v w : Json} (h : w.Distinct) (within : v.Within w) : v.Distinct := by
  intro members inner
  exact h members (inner.trans within)

theorem distinct_obj_iff {members : List (String × Json)} :
    (Json.obj ⟨members⟩).Distinct ↔ (members.map (·.1)).Nodup ∧ ∀ m ∈ members, m.2.Distinct := by
  constructor
  · intro h
    exact ⟨h members .self, fun m hm => h.of_within (.member hm .self)⟩
  · rintro ⟨here, all⟩ other within
    cases within with
    | self => exact here
    | member hm within => exact all _ hm other within

theorem distinct_arr_iff {items : List Json} :
    (Json.arr items).Distinct ↔ ∀ v ∈ items, v.Distinct := by
  constructor
  · intro h v hv
    exact h.of_within (.item hv .self)
  · intro h other within
    cases within with
    | item hv within => exact h _ hv other within

theorem distinct_of_isScalar {v : Json} (h : v.IsScalar) : v.Distinct := by
  intro members within
  cases within with
  | self | item _ _ | member _ _ => exact h.elim

@[simp] theorem distinct_str (text : String) : (Json.str text).Distinct := by
  intro members within
  cases within_str_iff.mp within

@[simp] theorem distinct_empty : (Json.obj .empty).Distinct :=
  distinct_obj_iff.mpr ⟨.nil, fun _ hm => by cases hm⟩

namespace Distinct

variable {d : Members} {k : String} {v : Json}

theorem keys (h : (Json.obj d).Distinct) : d.keys.Nodup := (distinct_obj_iff.mp h).1

theorem member (h : (Json.obj d).Distinct) {m : String × Json} (hm : m ∈ d.entries) :
    m.2.Distinct := (distinct_obj_iff.mp h).2 m hm

theorem get? (h : (Json.obj d).Distinct) (hv : d.get? k = some v) : v.Distinct :=
  h.member (Dict.mem_of_lookup hv)

theorem insert (h : (Json.obj d).Distinct) (hv : v.Distinct) :
    (Json.obj (d.insert k v)).Distinct := by
  refine distinct_obj_iff.mpr ⟨Dict.nodup_keys_insert h.keys, fun m hm => ?_⟩
  rcases Dict.mem_put hm with rfl | hm
  · exact hv
  · exact h.member hm

theorem replace (h : (Json.obj d).Distinct) (hv : v.Distinct) :
    (Json.obj (d.replace k v)).Distinct := by
  have nodup : (d.replace k v).keys.Nodup := by
    rw [Dict.keys_replace]
    exact h.keys
  refine distinct_obj_iff.mpr ⟨nodup, fun m hm => ?_⟩
  rcases Dict.mem_putAt hm with rfl | hm
  · exact hv
  · exact h.member hm

theorem swapErase (h : (Json.obj d).Distinct) : (Json.obj (d.swapErase k)).Distinct :=
  distinct_obj_iff.mpr ⟨Dict.nodup_keys_swapErase h.keys,
    fun _ hm => h.member (Dict.mem_of_mem_swapErase hm)⟩

theorem obj? {v : Json} (h : v.Distinct) (hd : v.obj? = some d) : (Json.obj d).Distinct :=
  obj?_eq_some_iff.mp hd ▸ h

theorem arr? {v : Json} (h : v.Distinct) {items : List Json} (hi : v.arr? = some items) :
    (Json.arr items).Distinct :=
  arr?_eq_some_iff.mp hi ▸ h

theorem inner {v w : Json} (h : v.Distinct) (hw : v.get? k = some w) : w.Distinct := by
  obtain ⟨ms, rfl, hw⟩ := get?_eq_some_iff.mp hw
  exact h.get? hw

/-- A value that repeats no key is equal to itself. -/
theorem same_self {v : Json} (h : v.Distinct) : v.same v = true := by
  induction v using byParts with
  | scalar v plain =>
    cases v with
    | null => rfl
    | bool b => exact beq_self_eq_true b
    | int n => exact beq_self_eq_true n
    | float x => simp [same, Binary64.equals]
    | str _ | arr _ | obj _ => exact plain.elim
  | str s => exact beq_self_eq_true s
  | arr items ih =>
    rw [same, sameItems_iff, List.forall₂_same]
    intro v hv
    exact ih v hv (distinct_arr_iff.mp h v hv)
  | obj members ih =>
    rw [same, Bool.and_eq_true, sameMembers_iff]
    refine ⟨beq_self_eq_true members.length, fun m hm => ⟨m.2, ?_, ?_⟩⟩
    · exact Dict.lookup_of_mem h.keys hm
    · exact ih m hm (h.member hm)

end Distinct

/-- Whatever entries an object is built from, it repeats no key. -/
theorem distinct_ofList {members : List (String × Json)} (h : ∀ m ∈ members, m.2.Distinct) :
    (Json.obj (Dict.ofList members)).Distinct := by
  have step : ∀ d : Members, (Json.obj d).Distinct → (∀ m ∈ members, m.2.Distinct) →
      (Json.obj (members.foldl (fun d e => d.insert e.1 e.2) d)).Distinct := by
    intro d hd all
    induction members generalizing d with
    | nil => exact hd
    | cons m members ih =>
      obtain ⟨first, others⟩ := List.forall_mem_cons.mp all
      exact ih others _ (hd.insert first) others
  exact step .empty distinct_empty h

end ToolGateway.Json
