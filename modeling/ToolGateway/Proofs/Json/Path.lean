import ToolGateway.Proofs.Json.Distinct

/-!
# Values at paths

A path goes down from a value step by step, by a key into an object and by a number into an array.
Another value can be put where a path leads. That changes what is found there and below, and what is
found above only below its outline: objects keep their keys and arrays their lengths
(`outline_at?_setAt`).
-/

namespace ToolGateway.Json

/-- One step down from a value. -/
inductive Step where
  | member (key : String)
  | item (index : Nat)
deriving DecidableEq

abbrev Path := List Step

/-- What one step leads to. -/
def down? : Json → Step → Option Json
  | .obj members, .member key => members.get? key
  | .arr items, .item index => items[index]?
  | _, _ => none

/-- Puts a value where one step leads; nothing happens where it leads nowhere. -/
def put : Json → Step → Json → Json
  | .obj members, .member key, w => .obj (members.replace key w)
  | .arr items, .item index, w => .arr (items.set index w)
  | v, _, _ => v

/-- What a path leads to. -/
def at? (v : Json) : Path → Option Json
  | [] => some v
  | step :: path => (v.down? step).bind (·.at? path)

/-- Puts a value where a path leads; nothing happens where it leads nowhere. -/
def setAt (v : Json) (path : Path) (w : Json) : Json :=
  match path with
  | [] => w
  | step :: path =>
    match v.down? step with
    | some u => v.put step (u.setAt path w)
    | none => v

/-- The keys of an object, the length of an array, or any other value. -/
def outline : Json → Json
  | .obj members => .obj ⟨members.keys.map (·, .null)⟩
  | .arr items => .arr (.replicate items.length .null)
  | v => v

variable {v u w : Json} {step other : Step} {path rest : Path}

/-! ### One step -/

theorem down?_put_self (h : v.down? step = some u) : (v.put step w).down? step = some w := by
  cases v <;> cases step <;> try cases h
  · exact List.getElem?_set_self (List.getElem?_eq_some_iff.mp h).1
  · exact Dict.get?_replace_self (Dict.contains_of_get? h)

theorem down?_put_of_ne (h : step ≠ other) : (v.put step w).down? other = v.down? other := by
  cases v <;> cases step <;> try rfl
  · cases other with
    | member _ => rfl
    | item _ => exact List.getElem?_set_ne (fun same => h (congrArg Step.item same))
  · cases other with
    | member _ => exact Dict.get?_replace_of_ne (fun same => h (congrArg Step.member same))
    | item _ => rfl

theorem put_put : (v.put step u).put step w = v.put step w := by
  cases v <;> cases step <;> try rfl
  · exact congrArg Json.arr (List.set_set _)
  · exact congrArg Json.obj Dict.replace_replace

/-- Putting back what is there changes nothing. -/
theorem put_of_down? (h : v.down? step = some u) : v.put step u = v := by
  cases v <;> cases step <;> try rfl
  · obtain ⟨inside, rfl⟩ := List.getElem?_eq_some_iff.mp h
    exact congrArg Json.arr (List.set_getElem_self inside)
  · exact congrArg Json.obj (Dict.replace_of_get? h)

theorem outline_put : (v.put step w).outline = v.outline := by
  cases v <;> cases step <;> try rfl
  · exact congrArg (fun n => Json.arr (.replicate n .null)) List.length_set
  · exact congrArg (fun keys => Json.obj ⟨keys.map (·, .null)⟩) Dict.keys_replace

/-- What has the outline of an object is an object with its keys. -/
theorem exists_obj_of_outline {members : Members} (h : v.outline = (Json.obj members).outline) :
    ∃ ms, v = .obj ms ∧ ms.keys = members.keys := by
  cases v <;> try cases h
  next ms =>
    refine ⟨ms, rfl, ?_⟩
    injection h with h
    injection h with h
    exact (List.map_inj_right fun _ _ same => congrArg Prod.fst same).mp h

/-! ### Paths -/

theorem at?_append : v.at? (path ++ rest) = (v.at? path).bind (·.at? rest) := by
  induction path generalizing v with
  | nil => rfl
  | cons step path ih =>
    show (v.down? step).bind (·.at? (path ++ rest)) = ((v.down? step).bind (·.at? path)).bind _
    cases v.down? step with
    | none => rfl
    | some u => exact ih

theorem at?_cons (h : v.down? step = some u) : v.at? (step :: path) = u.at? path := by
  show (v.down? step).bind _ = _
  rw [h]
  rfl

theorem setAt_cons (h : v.down? step = some u) :
    v.setAt (step :: path) w = v.put step (u.setAt path w) := by
  rw [setAt, h]

/-- What a path leads to repeats no key where the whole does not. -/
theorem Distinct.at? (h : v.Distinct) (found : v.at? path = some w) : w.Distinct := by
  induction path generalizing v with
  | nil =>
    cases found
    exact h
  | cons step path ih =>
    obtain ⟨u, there, inner⟩ := Option.bind_eq_some_iff.mp found
    refine ih ?_ inner
    cases v <;> cases step <;> try cases there
    · exact Json.distinct_arr_iff.mp h _ (List.mem_of_getElem? there)
    · exact h.get? there

/-- What stands below a value that was put somewhere. -/
theorem at?_setAt_append (h : v.at? path = some u) :
    (v.setAt path w).at? (path ++ rest) = w.at? rest := by
  induction path generalizing v with
  | nil => rfl
  | cons step path ih =>
    obtain ⟨x, there, inner⟩ := Option.bind_eq_some_iff.mp h
    rw [setAt_cons there, List.cons_append, at?_cons (down?_put_self there)]
    exact ih inner

/-- What stands below the new value as it stood below the old one is found as it was. -/
theorem at?_setAt_of_same (h : v.at? path = some u) (same : w.at? rest = u.at? rest) :
    (v.setAt path w).at? (path ++ rest) = v.at? (path ++ rest) := by
  rw [at?_setAt_append h, same, at?_append, h]
  rfl

/-- Apart from where a value was put, everything is found as it was. -/
theorem at?_setAt_of_apart (above : ¬ path <+: rest) (below : ¬ rest <+: path) :
    (v.setAt path w).at? rest = v.at? rest := by
  induction path generalizing v rest with
  | nil => exact absurd List.nil_prefix above
  | cons step path ih =>
    cases rest with
    | nil => exact absurd List.nil_prefix below
    | cons other rest =>
      cases there : v.down? step with
      | none => rw [setAt, there]
      | some u =>
        rw [setAt_cons there]
        by_cases same : step = other
        · subst same
          rw [at?_cons (down?_put_self there), at?_cons there]
          apply ih
          · exact fun inner => above (List.cons_prefix_cons.mpr ⟨rfl, inner⟩)
          · exact fun inner => below (List.cons_prefix_cons.mpr ⟨rfl, inner⟩)
        · show ((v.put step _).down? other).bind _ = (v.down? other).bind _
          rw [down?_put_of_ne same]

/-- Where a value was put below, the outline stays. -/
theorem outline_at?_setAt (above : ¬ path <+: rest) :
    ((v.setAt path w).at? rest).map outline = (v.at? rest).map outline := by
  induction path generalizing v rest with
  | nil => exact absurd List.nil_prefix above
  | cons step path ih =>
    cases there : v.down? step with
    | none => rw [setAt, there]
    | some u =>
      rw [setAt_cons there]
      cases rest with
      | nil => exact congrArg some outline_put
      | cons other rest =>
        by_cases same : step = other
        · subst same
          rw [at?_cons (down?_put_self there), at?_cons there]
          apply ih
          exact fun inner => above (List.cons_prefix_cons.mpr ⟨rfl, inner⟩)
        · show (((v.put step _).down? other).bind _).map _ = ((v.down? other).bind _).map _
          rw [down?_put_of_ne same]

end ToolGateway.Json
