import ToolGateway.Proofs.Json.Path
import ToolGateway.Proofs.Schema.Visited

/-!
# Positions of schemas

The path to a value alone says what a walk takes the value for, and so which objects it takes for
schemas (`SchemaAt`). A position is a place where such a schema stands and is no reference, and no
schema above it is one (`Position`). These are the places that a walk visits, if it is told to go on
everywhere, and each path below a value in a role is a path below one of the stops that a walk makes
in it (`Under`).
-/

namespace ToolGateway.Schema

open Json (Step Path)

/-! ### Roles along a path -/

/-- What one step below a value makes of its role. -/
def Role.child? : Role → Step → Option Role
  | schema, .member key => Dict.lookup key places
  | subschema, .member key => Dict.lookup key places
  | subschema, .item _ => some schema
  | part p, .member key => Dict.lookup key p.places
  | list role, .item _ => some role
  | map role, .member _ => some role
  | _, _ => none

/-- What a path below a value makes of its role. -/
def Role.along (role : Role) (path : Path) : Option Role := path.foldlM Role.child? role

/-- A role of schemas. -/
def Role.IsSchema (role : Role) : Prop := role = .schema ∨ role = .subschema

/-- A schema object at a path below a value in a role. -/
def SchemaAt (role : Role) (v : Json) (path : Path) (n : Json.Members) : Prop :=
  v.at? path = some (.obj n) ∧ ∃ goal, role.along path = some goal ∧ goal.IsSchema

/-- A schema object at a path that is no reference, and neither is a schema on the way. -/
structure Position (role : Role) (v : Json) (path : Path) (n : Json.Members) : Prop where
  schema : SchemaAt role v path n
  own : ∀ above m, above <+: path → SchemaAt role v above m → m.contains "$ref" = false

variable {role : Role} {v u : Json} {step : Step} {path : Path} {n : Json.Members}

theorem schemaAt_nil_iff : SchemaAt role v [] n ↔ v = .obj n ∧ role.IsSchema := by
  constructor
  · rintro ⟨⟨⟩, _, ⟨⟩, isSchema⟩
    exact ⟨rfl, isSchema⟩
  · rintro ⟨rfl, isSchema⟩
    exact ⟨rfl, role, rfl, isSchema⟩

theorem schemaAt_cons_iff : SchemaAt role v (step :: path) n ↔
    ∃ inner u, role.child? step = some inner ∧ v.down? step = some u ∧
      SchemaAt inner u path n := by
  constructor
  · rintro ⟨found, goal, along, isSchema⟩
    obtain ⟨u, there, found⟩ := Option.bind_eq_some_iff.mp found
    rw [Role.along, List.foldlM_cons] at along
    obtain ⟨inner, child, along⟩ := Option.bind_eq_some_iff.mp along
    exact ⟨inner, u, child, there, found, goal, along, isSchema⟩
  · rintro ⟨inner, u, child, there, found, goal, along, isSchema⟩
    refine ⟨(Json.at?_cons there).trans found, goal, ?_, isSchema⟩
    rw [Role.along, List.foldlM_cons, child]
    exact along

theorem position_nil_iff : Position role v [] n ↔
    v = .obj n ∧ role.IsSchema ∧ n.contains "$ref" = false := by
  constructor
  · rintro ⟨schema, own⟩
    obtain ⟨rfl, isSchema⟩ := schemaAt_nil_iff.mp schema
    exact ⟨rfl, isSchema, own [] n List.nil_prefix schema⟩
  · rintro ⟨rfl, isSchema, own⟩
    refine ⟨schemaAt_nil_iff.mpr ⟨rfl, isSchema⟩, fun above m isPrefix here => ?_⟩
    rw [List.prefix_nil.mp isPrefix] at here
    cases (schemaAt_nil_iff.mp here).1
    exact own

/-- A value below which positions may be: no reference in the role of a schema. -/
def Role.Open (role : Role) (v : Json) : Prop :=
  ∀ m, v = .obj m → role.IsSchema → m.contains "$ref" = false

theorem not_isSchema_part {p : Part} : ¬Role.IsSchema (.part p) := by
  rintro (⟨⟨⟩⟩ | ⟨⟨⟩⟩)

theorem not_isSchema_map : ¬Role.IsSchema (.map role) := by
  rintro (⟨⟨⟩⟩ | ⟨⟨⟩⟩)

theorem Role.open_of_not_isSchema (other : ¬role.IsSchema) : role.Open v :=
  fun _ _ isSchema => absurd isSchema other

theorem position_cons_iff : Position role v (step :: path) n ↔
    role.Open v ∧ ∃ inner u, role.child? step = some inner ∧ v.down? step = some u ∧
      Position inner u path n := by
  constructor
  · rintro ⟨schema, own⟩
    obtain ⟨inner, u, child, there, schema⟩ := schemaAt_cons_iff.mp schema
    refine ⟨fun m hm isSchema => ?_, inner, u, child, there, schema, fun above m isPrefix h => ?_⟩
    · exact own [] m List.nil_prefix (schemaAt_nil_iff.mpr ⟨hm, isSchema⟩)
    · exact own (step :: above) m (List.cons_prefix_cons.mpr ⟨rfl, isPrefix⟩)
        (schemaAt_cons_iff.mpr ⟨inner, u, child, there, h⟩)
  · rintro ⟨isOpen, inner, u, child, there, schema, own⟩
    refine ⟨schemaAt_cons_iff.mpr ⟨inner, u, child, there, schema⟩, fun above m isPrefix h => ?_⟩
    cases above with
    | nil =>
      obtain ⟨hm, isSchema⟩ := schemaAt_nil_iff.mp h
      exact isOpen m hm isSchema
    | cons other above =>
      obtain ⟨rfl, inPath⟩ := List.cons_prefix_cons.mp isPrefix
      obtain ⟨_, _, child', there', h⟩ := schemaAt_cons_iff.mp h
      rw [child] at child'
      rw [there] at there'
      cases child'
      cases there'
      exact own above m inPath h

/-- A reusable schema that is no reference stands at a position. -/
theorem position_component {name : String} (own : n.contains "$ref" = false)
    (there : v.at? [.member "components", .member "schemas", .member name] = some (.obj n)) :
    Position (.part .document) v [.member "components", .member "schemas", .member name] n := by
  obtain ⟨components, first, there⟩ := Option.bind_eq_some_iff.mp there
  obtain ⟨schemas, second, there⟩ := Option.bind_eq_some_iff.mp there
  obtain ⟨_, third, same⟩ := Option.bind_eq_some_iff.mp there
  cases same
  refine position_cons_iff.mpr ⟨Role.open_of_not_isSchema not_isSchema_part, _, _, rfl, first, ?_⟩
  refine position_cons_iff.mpr ⟨Role.open_of_not_isSchema not_isSchema_part, _, _, rfl, second, ?_⟩
  refine position_cons_iff.mpr ⟨Role.open_of_not_isSchema not_isSchema_map, _, _, rfl, third, ?_⟩
  exact position_nil_iff.mpr ⟨rfl, Or.inl rfl, own⟩

/-- A schema above a position stands at a position itself. -/
theorem Position.above {above : Path} {m : Json.Members} (h : Position role v path n)
    (isPrefix : above <+: path) (schema : SchemaAt role v above m) : Position role v above m where
  schema := schema
  own top _ inside := h.own top _ (inside.trans isPrefix)

/-- What stands at a position is visited. -/
theorem Position.visits (h : Position role v path n) : Visits role v n := by
  induction path generalizing role v with
  | nil =>
    obtain ⟨rfl, isSchema, own⟩ := position_nil_iff.mp h
    rcases isSchema with rfl | rfl
    · exact .here own
    · exact .one (.here own)
  | cons step path ih =>
    obtain ⟨isOpen, inner, u, child, there, inside⟩ := position_cons_iff.mp h
    have below := ih inside
    cases v <;> cases step <;> try cases there
    next items index =>
      have mem := List.mem_of_getElem? there
      cases role <;> cases child
      · exact .several mem below
      · exact .item mem below
    next members key =>
      cases role with
      | schema => exact .under (isOpen _ rfl (Or.inl rfl)) (Dict.mem_of_lookup child) there below
      | subschema =>
        exact .one (.under (isOpen _ rfl (Or.inr rfl)) (Dict.mem_of_lookup child) there below)
      | part p => exact .part (Dict.mem_of_lookup child) there below
      | list _ => cases child
      | map _ =>
        cases child
        exact .entry (Dict.mem_of_lookup there) below

/-! ### Stops -/

/-- A path leads from a value by one of some stops, steps each of which has a role, to a position
below it. -/
def Under (stops : List (Step × Role)) (v : Json) (path : Path) (n : Json.Members) : Prop :=
  ∃ step inner u rest, (step, inner) ∈ stops ∧ v.down? step = some u ∧ path = step :: rest ∧
    Position inner u rest n

/-- The stops at members of an object. -/
def atMembers (ps : List (String × Role)) : List (Step × Role) :=
  ps.map fun p => (.member p.1, p.2)

/-- The stops at the items of a list from a number on. -/
def atItems (role : Role) (first count : Nat) : List (Step × Role) :=
  (List.range' first count).map fun index => (.item index, role)

variable {stops : List (Step × Role)}

theorem not_under_nil : ¬Under [] v path n := by
  rintro ⟨_, _, _, _, ⟨⟩, _⟩

theorem under_cons_iff : Under ((step, role) :: stops) v path n ↔
    (∃ u rest, v.down? step = some u ∧ path = step :: rest ∧ Position role u rest n) ∨
      Under stops v path n := by
  constructor
  · rintro ⟨_, _, u, rest, mem, there, same, inside⟩
    rcases List.mem_cons.mp mem with mem | mem
    · cases mem
      exact Or.inl ⟨u, rest, there, same, inside⟩
    · exact Or.inr ⟨_, _, u, rest, mem, there, same, inside⟩
  · rintro (⟨u, rest, there, same, inside⟩ | ⟨_, _, u, rest, mem, there, same, inside⟩)
    · exact ⟨_, _, u, rest, List.mem_cons_self, there, same, inside⟩
    · exact ⟨_, _, u, rest, List.mem_cons_of_mem _ mem, there, same, inside⟩

theorem under_congr {w : Json} (same : ∀ stop ∈ stops, w.down? stop.1 = v.down? stop.1) :
    Under stops w path n ↔ Under stops v path n := by
  constructor
  · rintro ⟨_, _, u, rest, mem, there, led, inside⟩
    exact ⟨_, _, u, rest, mem, same _ mem ▸ there, led, inside⟩
  · rintro ⟨_, _, u, rest, mem, there, led, inside⟩
    exact ⟨_, _, u, rest, mem, (same _ mem).trans there, led, inside⟩

/-- The positions below a value are those by its stops, apart from the value itself. -/
theorem position_iff_under (stops : List (Step × Role)) (isOpen : role.Open v)
    (all : ∀ step u, v.down? step = some u → ∀ inner,
      role.child? step = some inner ↔ (step, inner) ∈ stops) :
    Position role v path n ↔
      (path = [] ∧ v = .obj n ∧ role.IsSchema) ∨ Under stops v path n := by
  cases path with
  | nil =>
    rw [position_nil_iff]
    constructor
    · rintro ⟨rfl, isSchema, -⟩
      exact Or.inl ⟨rfl, rfl, isSchema⟩
    · rintro (⟨-, rfl, isSchema⟩ | ⟨_, _, _, _, _, _, ⟨⟩, _⟩)
      exact ⟨rfl, isSchema, isOpen n rfl isSchema⟩
  | cons step path =>
    rw [position_cons_iff]
    constructor
    · rintro ⟨-, inner, u, child, there, inside⟩
      exact Or.inr ⟨step, inner, u, path, (all step u there inner).mp child, there, rfl, inside⟩
    · rintro (⟨⟨⟩, _⟩ | ⟨_, inner, u, _, mem, there, ⟨⟩, inside⟩)
      exact ⟨isOpen, inner, u, (all _ u there inner).mpr mem, there, inside⟩

theorem mem_atMembers {ps : List (String × Role)} (nodup : (ps.map (·.1)).Nodup) {key : String} :
    Dict.lookup key ps = some role ↔ (Step.member key, role) ∈ atMembers ps := by
  constructor
  · intro found
    exact List.mem_map.mpr ⟨(key, role), Dict.mem_of_lookup found, rfl⟩
  · intro mem
    obtain ⟨_, inside, same⟩ := List.mem_map.mp mem
    cases same
    exact Dict.lookup_of_mem nodup inside

theorem member_mem_atMembers {ps : List (String × Role)} {key : String} :
    Step.member key ∈ (atMembers ps).map (·.1) ↔ key ∈ ps.map (·.1) := by
  simp [atMembers]

theorem item_mem_atItems {first count index : Nat} :
    Step.item index ∈ (atItems role first count).map (·.1) ↔
      first ≤ index ∧ index < first + count := by
  simp [atItems]

theorem position_schema_iff {node : Json.Members} (own : node.contains "$ref" = false) :
    Position .schema (.obj node) path n ↔
      (path = [] ∧ n = node) ∨ Under (atMembers places) (.obj node) path n := by
  rw [position_iff_under (atMembers places)]
  · simp [Role.IsSchema, eq_comm]
  · rintro _ ⟨⟩ -
    exact own
  · intro step u there inner
    cases step with
    | member key => exact mem_atMembers nodup_places
    | item _ => cases there

theorem position_part_iff {p : Part} {node : Json.Members} :
    Position (.part p) (.obj node) path n ↔ Under (atMembers p.places) (.obj node) path n := by
  rw [position_iff_under (atMembers p.places)]
  · exact or_iff_right fun h => not_isSchema_part h.2.2
  · exact Role.open_of_not_isSchema not_isSchema_part
  · intro step u there inner
    cases step with
    | member key => exact mem_atMembers p.nodup_places
    | item _ => cases there

theorem position_map_iff {es : List (String × Json)} :
    Position (.map role) (.obj ⟨es⟩) path n ↔
      Under (atMembers (es.map fun e => (e.1, role))) (.obj ⟨es⟩) path n := by
  rw [position_iff_under (atMembers (es.map fun e => (e.1, role)))]
  · exact or_iff_right fun h => not_isSchema_map h.2.2
  · exact Role.open_of_not_isSchema not_isSchema_map
  · intro step u there inner
    cases step with
    | member key =>
      have mem : (key, u) ∈ es := Dict.mem_of_lookup there
      simp only [Role.child?, atMembers, List.mem_map, Option.some.injEq, Prod.mk.injEq,
        Step.member.injEq]
      constructor
      · rintro rfl
        exact ⟨_, ⟨_, mem, rfl⟩, rfl, rfl⟩
      · rintro ⟨_, ⟨_, -, rfl⟩, -, same⟩
        exact same
    | item _ => cases there

/-- Where each item of an array has one role. -/
theorem position_items_iff {outer : Role} {items : List Json}
    (each : ∀ index, outer.child? (.item index) = some role) :
    Position outer (.arr items) path n ↔
      Under (atItems role 0 items.length) (.arr items) path n := by
  rw [position_iff_under (atItems role 0 items.length)]
  · simp
  · exact nofun
  · intro step u there inner
    cases step with
    | member key => cases there
    | item index =>
      have inside := (List.getElem?_eq_some_iff.mp there).1
      rw [each]
      simp only [atItems, List.mem_map, List.mem_range'_1, Option.some.injEq, Prod.mk.injEq,
        Step.item.injEq]
      constructor
      · rintro rfl
        exact ⟨index, ⟨Nat.zero_le _, by omega⟩, rfl, rfl⟩
      · rintro ⟨_, -, -, same⟩
        exact same

/-- What may be a list is a schema where it is none. -/
theorem position_one_iff (flat : ∀ items, v ≠ .arr items) :
    Position .subschema v path n ↔ Position .schema v path n := by
  have isSchema : Role.IsSchema .subschema ↔ Role.IsSchema .schema :=
    ⟨fun _ => Or.inl rfl, fun _ => Or.inr rfl⟩
  cases path with
  | nil => rw [position_nil_iff, position_nil_iff, isSchema]
  | cons step path =>
    rw [position_cons_iff, position_cons_iff]
    have isOpen : Role.Open .subschema v ↔ Role.Open .schema v := by
      simp only [Role.Open, isSchema]
    rw [isOpen]
    cases step with
    | member key => rfl
    | item index =>
      have nowhere : v.down? (.item index) = none := by
        cases v <;> try rfl
        exact absurd rfl (flat _)
      simp [nowhere]

end ToolGateway.Schema
