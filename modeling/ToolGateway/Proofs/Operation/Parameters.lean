import Mathlib.Data.Finset.Card
import ToolGateway.Proofs.Operation.Composition

/-!
# A property for each parameter

Parameters are told apart by their location and name, and when a path item and an operation declare
the same one, the operation's counts. The schema of the parameters has its properties under names
only. So two parameters of one name share a property, the last one gives it its schema, and the name
is listed as required once for each declaration that requires it. There is one property for each
parameter, and each name is required once, exactly when no name is served in two locations and none
is required twice (`parameters_kept_apart_iff`).
-/

namespace ToolGateway

/-- What a parameter is told apart by. -/
def Parameter.slot (p : Parameter) : String × String := (p.declaredIn, p.name)

/-- A path parameter is always required. -/
theorem Parameter.required_of_path {p : Parameter} {v : Json} (h : ofJson? v = some p)
    (path : p.declaredIn = "path") : p.required = true := by
  unfold ofJson? at h
  simp only [Option.bind_eq_bind, Option.bind_eq_some_iff] at h
  obtain ⟨ms, -, name, -, declaredIn, -, same⟩ := h
  cases same
  rw [Bool.or_eq_true, beq_iff_eq]
  exact Or.inl path

/-- Every parameter of an operation was read from a declaration. -/
theorem Operation.exists_declaration {path method : String} {item : Json.Members} {body : Json}
    {d : Document} {p : Parameter} (h : p ∈ (ofItem path method item body d).parameters) :
    ∃ v, Parameter.ofJson? v = some p := by
  have listed : ∀ v, p ∈ Parameter.listOf v → ∃ w, Parameter.ofJson? w = some p := by
    intro v hp
    obtain ⟨w, -, read⟩ := List.mem_filterMap.mp hp
    exact ⟨w, read⟩
  rcases List.mem_append.mp h with h | h
  · exact listed _ (List.mem_filter.mp h).1
  · exact listed _ h

namespace Envelope

variable {e : Envelope} {op : Operation} {schema : Json}

/-! ### The schema of the parameters -/

/-- The entry for a parameter among the properties. -/
def propertyOf (p : Parameter) : String × Json :=
  (p.name, described p.schema (p.description.map .str))

def properties (op : Operation) : Json.Members := Dict.ofList ((served op).map propertyOf)

/-- The names of the parameters that are required, once for each declaration. -/
def requiredNames (op : Operation) : List String :=
  ((served op).filter (·.required)).map (·.name)

/-- The names that a schema lists as required; without names there is no list. -/
def Requires (schema : Json) (names : List String) : Prop :=
  schema.get? "required" = if names.isEmpty then none else some (Json.strings names)

theorem Requires.unique {names others : List String} (h : Requires schema names)
    (h' : Requires schema others) : names = others := by
  rw [Requires, h] at h'
  cases names with
  | nil =>
    cases others with
    | nil => rfl
    | cons => cases h'
  | cons name names =>
    cases others with
    | nil => cases h'
    | cons other others =>
      exact List.map_injective_iff.mpr (fun _ _ => Json.str.inj) (Json.arr.inj (Option.some.inj h'))

theorem get?_parametersSchema (h : parametersSchema op = some schema) :
    schema.get? "properties" = some (.obj (properties op)) ∧
      Requires schema (requiredNames op) := by
  unfold parametersSchema at h
  dsimp only at h
  split at h
  · cases h
  · cases h
    refine ⟨rfl, ?_⟩
    rw [Requires, requiredNames]
    cases ((served op).filter (·.required)).map (·.name) <;> rfl

theorem property?_parametersSchema (h : parametersSchema op = some schema) (name : String) :
    schema.property? name = (properties op).get? name := by
  rw [Json.property?, Json.getObj?_eq_some_iff.mpr (get?_parametersSchema h).1]
  rfl

theorem names_propertyOf (ps : List Parameter) :
    (ps.map propertyOf).map (·.1) = ps.map (·.name) := by
  rw [List.map_map]
  rfl

/-! ### How many properties there are -/

/-- The parameters that the gateway serves, each once. -/
def slots (op : Operation) : Finset (String × String) := ((served op).map Parameter.slot).toFinset

theorem mem_slots {slot : String × String} : slot ∈ slots op ↔ ∃ p ∈ served op, p.slot = slot := by
  rw [slots, List.mem_toFinset, List.mem_map]

theorem size_properties (op : Operation) :
    (properties op).size = ((slots op).image Prod.snd).card := by
  have keys : (properties op).keys.toFinset = (slots op).image Prod.snd := by
    ext name
    rw [List.mem_toFinset, Dict.mem_keys_iff, properties, Dict.contains_ofList, names_propertyOf,
      List.mem_map, Finset.mem_image]
    constructor
    · rintro ⟨p, hp, rfl⟩
      exact ⟨p.slot, mem_slots.mpr ⟨p, hp, rfl⟩, rfl⟩
    · rintro ⟨slot, hs, rfl⟩
      obtain ⟨p, hp, rfl⟩ := mem_slots.mp hs
      exact ⟨p, hp, rfl⟩
  have distinct : (properties op).keys.Nodup := Dict.nodup_keys_ofList
  rw [← keys, List.toFinset_card_of_nodup distinct, Dict.size, Dict.keys, List.length_map]

/-- No name is served in two locations. -/
def NamedApart (op : Operation) : Prop :=
  ∀ p ∈ served op, ∀ q ∈ served op, p.name = q.name → p.declaredIn = q.declaredIn

/-- There are as many properties as parameters exactly when no name is served in two locations. -/
theorem size_properties_eq_iff : (properties op).size = (slots op).card ↔ NamedApart op := by
  rw [size_properties, Finset.card_image_iff]
  constructor
  · intro injective p hp q hq same
    exact (Prod.mk.inj (injective (mem_slots.mpr ⟨p, hp, rfl⟩) (mem_slots.mpr ⟨q, hq, rfl⟩) same)).1
  · intro apart s hs t ht same
    obtain ⟨p, hp, rfl⟩ := mem_slots.mp hs
    obtain ⟨q, hq, rfl⟩ := mem_slots.mp ht
    exact Prod.ext (apart p hp q hq same) same

/-! ### Values for parameters -/

/-- A call can give each parameter a value of its own. -/
def Assignable (e : Envelope) (op : Operation) : Prop :=
  ∀ value : String × String → Json, (∀ slot, value slot ≠ .null) → ∃ arguments, ∀ p ∈ served op,
    ∀ l : Location, p.declaredIn = l.name →
      (p.name, value p.slot) ∈ ((e.decompose op (some arguments)).part l).entries

theorem assignable_of_namedApart (apart : NamedApart op) : e.Assignable op := by
  intro value filled
  let values : Json.Members := Dict.ofList ((served op).map fun p => (p.name, value p.slot))
  refine ⟨⟨[(e.parametersKey, .obj values)]⟩, fun p hp l hl => ?_⟩
  have found : values.get? p.name = some (value p.slot) := by
    have has : values.contains p.name = true := by
      rw [Dict.contains_ofList, List.map_map]
      exact List.mem_map.mpr ⟨p, hp, rfl⟩
    obtain ⟨v, found⟩ := Option.isSome_iff_exists.mp has
    -- Whichever parameter of the name gives the value, it is in the same location.
    obtain ⟨q, hq, same⟩ := List.mem_map.mp (Dict.mem_of_get?_ofList found)
    obtain ⟨name, rfl⟩ := Prod.mk.inj same
    rw [found, Parameter.slot, Parameter.slot, name, apart q hq p hp name]
  have wrapped : e.Reads op ⟨[(e.parametersKey, .obj values)]⟩ values := .wrapped (if_pos rfl)
  exact mem_part_decompose.mpr
    ⟨values, wrapped, ⟨p, (mem_served.mp hp).1, rfl, hl⟩, found, filled p.slot⟩

theorem Reads.unique {arguments values others : Json.Members} (h : e.Reads op arguments values)
    (h' : e.Reads op arguments others) : values = others := by
  by_cases inside : e.Wraps arguments
  · have same := ((Reads.iff_of_wraps inside).mp h).symm.trans ((Reads.iff_of_wraps inside).mp h')
    exact Json.obj.inj (Option.some.inj same)
  · rw [(h.eq_of_not_wraps inside).1, (h'.eq_of_not_wraps inside).1]

/-- Parameters of one name get one value. -/
theorem namedApart_of_assignable (assignable : e.Assignable op) : NamedApart op := by
  intro p hp q hq same
  -- One of the two locations is given another value than the other.
  obtain ⟨arguments, given⟩ :=
    assignable (fun slot => .bool (slot.1 = p.declaredIn)) (fun _ => nofun)
  obtain ⟨-, l, hl⟩ := mem_served.mp hp
  obtain ⟨-, m, hm⟩ := mem_served.mp hq
  obtain ⟨values, reads, -, ofP, -⟩ := mem_part_decompose.mp (given p hp l hl)
  obtain ⟨others, reads', -, ofQ, -⟩ := mem_part_decompose.mp (given q hq m hm)
  rw [← same, ← reads.unique reads', ofP] at ofQ
  have equal := Json.bool.inj (Option.some.inj ofQ)
  exact (of_decide_eq_true (equal.symm.trans (decide_eq_true rfl))).symm

/-! ### Kept apart -/

/-- What the schema of the parameters always says. -/
structure Portrays (e : Envelope) (op : Operation) (schema : Json) : Prop where
  /-- It is the schema of all arguments, or stands in an envelope beside that of a body. -/
  composed : e.compose op = some schema ∨
    ∃ body, e.compose op = some (e.envelopeSchema schema body)
  /-- Its properties are the names of the parameters that are served. -/
  named : ∀ name, (schema.property? name).isSome = true ↔ ∃ p ∈ served op, p.name = name
  /-- A property has the schema of the last parameter of its name. -/
  latest : ∀ before p after, served op = before ++ p :: after → p.name ∉ after.map (·.name) →
    schema.property? p.name = some (described p.schema (p.description.map .str))
  /-- The name of each parameter that is required is listed, in order. -/
  listed : Requires schema (requiredNames op)
  path : ∀ p ∈ served op, p.declaredIn = "path" → p.required = true

/-- The schema has one property for each parameter, and lists each that is required once. -/
structure KeepsApart (e : Envelope) (op : Operation) (schema : Json) : Prop where
  properties : ∃ ps, schema.get? "properties" = some (.obj ps) ∧ ps.keys.Nodup ∧
    (∀ p ∈ served op, ps.contains p.name = true) ∧ ps.size = (slots op).card
  assignable : e.Assignable op
  required : ∃ names, Requires schema names ∧ names.Nodup ∧
    ∀ name, name ∈ names ↔ (schema.property? name).isSome = true ∧
      ∃ p ∈ served op, p.required = true ∧ p.name = name

theorem portrays_parametersSchema {path method : String} {item : Json.Members} {body : Json}
    {d : Document} (h : parametersSchema (.ofItem path method item body d) = some schema) :
    e.Portrays (.ofItem path method item body d) schema where
  composed := by
    have composes := e.compose_composes (.ofItem path method item body d)
    have served : served (.ofItem path method item body d) ≠ [] := by
      rw [Ne, ← parametersSchema_eq_none_iff, h]
      nofun
    generalize e.compose (.ofItem path method item body d) = composed at composes
    cases composes with
    | nothing unserved => exact absurd unserved served
    | parameters parameters =>
      rw [h] at parameters
      exact Or.inl parameters.symm
    | body unserved => exact absurd unserved served
    | both parameters =>
      rw [h] at parameters
      cases parameters
      exact Or.inr ⟨_, rfl⟩
  named := fun name => isSome_property?_parametersSchema h
  latest := by
    intro before p after split last
    rw [property?_parametersSchema h, properties, split, List.map_append, List.map_cons]
    refine Dict.get?_ofList_append_cons ?_
    rwa [names_propertyOf]
  listed := (get?_parametersSchema h).2
  path := by
    intro p hp inPath
    obtain ⟨v, read⟩ := Operation.exists_declaration (mem_served.mp hp).1
    exact Parameter.required_of_path read inPath

theorem mem_requiredNames {name : String} :
    name ∈ requiredNames op ↔ ∃ p ∈ served op, p.required = true ∧ p.name = name := by
  simp only [requiredNames, List.mem_map, List.mem_filter, and_assoc]

theorem keepsApart_iff (h : parametersSchema op = some schema) :
    e.KeepsApart op schema ↔ NamedApart op ∧ (requiredNames op).Nodup := by
  obtain ⟨found, listed⟩ := get?_parametersSchema h
  constructor
  · rintro ⟨-, assignable, names, lists, once, -⟩
    exact ⟨namedApart_of_assignable assignable, listed.unique lists ▸ once⟩
  · rintro ⟨apart, once⟩
    refine ⟨⟨_, found, Dict.nodup_keys_ofList, fun p hp => ?_, size_properties_eq_iff.mpr apart⟩,
      assignable_of_namedApart apart, _, listed, once, fun name => ?_⟩
    · rw [properties, Dict.contains_ofList, names_propertyOf]
      exact List.mem_map_of_mem hp
    · rw [mem_requiredNames, isSome_property?_parametersSchema h]
      refine ⟨fun ⟨p, hp, required, same⟩ => ⟨⟨p, hp, same⟩, p, hp, required, same⟩, And.right⟩

end Envelope

namespace Operation.Sample

/-- Declarations of parameters that are required, each with its location and name. -/
def declarations (ps : List (String × String)) : Json :=
  .arr (ps.map fun p =>
    .object [("in", .str p.1), ("name", .str p.2), ("required", .bool true)])

/-- An operation whose path item declares some parameters, and which declares others itself. -/
def merged (shared own : List (String × String)) : Operation :=
  .ofItem "/users/\x7bid\x7d" "GET" ⟨[("parameters", declarations shared)]⟩
    (.object [("parameters", declarations own)]) ⟨.null⟩

end Operation.Sample

open Envelope Operation.Sample

/-- For every operation with the schema of its parameters: there is one property for each parameter
and one listing for each that is required exactly when no name is served in two locations and none
is required twice. In any case the properties are the names of the parameters, the last one of a
name describes it, and all names of required parameters are listed, those of path parameters among
them. -/
theorem parameters_kept_apart_iff (e : Envelope) (path method : String) (item : Json.Members)
    (body : Json) (d : Document) {schema : Json}
    (h : parametersSchema (.ofItem path method item body d) = some schema) :
    e.Portrays (.ofItem path method item body d) schema ∧
      (e.KeepsApart (.ofItem path method item body d) schema ↔
        NamedApart (.ofItem path method item body d) ∧
          (requiredNames (.ofItem path method item body d)).Nodup) :=
  ⟨portrays_parametersSchema h, keepsApart_iff h⟩

/-- The statement for an operation that declares a parameter of its path item again. -/
theorem parameters_kept_apart_iff_merged :
    let op := merged [("path", "id"), ("header", "trace")] [("header", "trace"), ("query", "limit")]
    ∃ schema, parametersSchema op = some schema ∧ Envelope.usual.Portrays op schema ∧
      Envelope.usual.KeepsApart op schema := by
  have apart : NamedApart (merged [("path", "id"), ("header", "trace")]
      [("header", "trace"), ("query", "limit")]) := by
    unfold NamedApart
    decide +kernel
  obtain ⟨portrays, iff⟩ := parameters_kept_apart_iff .usual "/users/\x7bid\x7d" "GET"
    ⟨[("parameters", declarations [("path", "id"), ("header", "trace")])]⟩
    (.object [("parameters", declarations [("header", "trace"), ("query", "limit")])]) ⟨.null⟩ rfl
  exact ⟨_, rfl, portrays, iff.mpr ⟨apart, by decide +kernel⟩⟩

/-- Two parameters of one name, in the path and in the query, share one property, and the name is
listed twice. -/
theorem parameters_share_property :
    let op := merged [("path", "id")] [("query", "id")]
    ∃ schema properties, parametersSchema op = some schema ∧
      schema.get? "properties" = some (.obj properties) ∧ properties.size = 1 ∧
      (slots op).card = 2 ∧ Requires schema ["id", "id"] ∧
      ¬ Envelope.usual.KeepsApart op schema := by
  refine ⟨_, _, rfl, rfl, rfl, by decide +kernel, rfl, fun apart => ?_⟩
  have once := ((keepsApart_iff rfl).mp apart).2
  exact absurd once (by decide +kernel)

end ToolGateway
