import ToolGateway.Proofs.Operation.Composition
import ToolGateway.Proofs.Tool.Names

/-!
# Schemas that clients get

The schema of a tool's arguments is that of an object with properties, whether it was composed, made
up for an operation without arguments, or taken over from the author of the description. Its type is
the plain text `object`, with one exception: a body that stands alone keeps its type when that is a
list of types which names `object`. The main statement, `catalog_schemas`, says exactly when.
-/

namespace ToolGateway

namespace Envelope

variable {e : Envelope} {op : Operation}

/-! ### Objects with properties -/

/-- What makes a schema one of an object with properties. -/
theorem hasProperties_iff {schema : Json} :
    hasProperties schema = true ↔
      (schema.get? "type" = some (.str "object") ∨
        ∃ types, schema.get? "type" = some (.arr types) ∧ .str "object" ∈ types) ∧
      ∃ properties, schema.get? "properties" = some (.obj properties) ∧
        properties.isEmpty = false := by
  unfold hasProperties
  rw [Bool.and_eq_true]
  refine and_congr ?_ ?_
  · generalize schema.get? "type" = type
    rcases type with _ | type
    · simp
    · cases type with
      | str t => simp
      | arr types =>
        simp only [List.any_eq_true, beq_iff_eq, Json.str?_eq_some_iff]
        simp
      | _ => simp
  · generalize schema.get? "properties" = properties
    rcases properties with _ | properties
    · simp
    · cases properties <;> simp

/-- A description leaves all other members as they are. -/
theorem get?_described (schema : Json) (description : Option Json) {key : String}
    (h : key ≠ "description") : (described schema description).get? key = schema.get? key := by
  unfold described
  split
  · split
    · rfl
    · simp [Json.get?, Ne.symm h]
  · rfl

/-! ### The schema of an operation -/

/-- The operation has nothing but a body that is an object with properties, and the type of that
object is a list. -/
def Listed (op : Operation) (types : List Json) : Prop :=
  served op = [] ∧ ∃ media b, op.TakesBody media b ∧ hasProperties b = true ∧
    b.get? "type" = some (.arr types)

/-- The schema is that of an object with properties. -/
structure OfObject (op : Operation) (schema : Json) : Prop where
  /-- The properties are there, and they are an object. -/
  properties : ∃ properties, schema.get? "properties" = some (.obj properties)
  /-- The type is plain, except for a body alone that lists its types. -/
  plain_iff : schema.get? "type" = some (.str "object") ↔ ∀ types, ¬Listed op types
  /-- Then the type is that list, and it names objects. -/
  listed : ∀ types, Listed op types →
    schema.get? "type" = some (.arr types) ∧ .str "object" ∈ types

/-- A schema of a plain type is as it should be when no body lists its types. -/
theorem OfObject.of_plain {schema : Json} {properties : Json.Members}
    (type : schema.get? "type" = some (.str "object"))
    (found : schema.get? "properties" = some (.obj properties))
    (plain : ∀ types, ¬Listed op types) : OfObject op schema :=
  ⟨⟨properties, found⟩, iff_of_true type plain, fun types h => absurd h (plain types)⟩

theorem not_listed_of_bodiless (h : op.jsonBody = none) (types : List Json) : ¬Listed op types := by
  rintro ⟨-, media, b, takes, -⟩
  exact Operation.jsonBody_eq_none_iff.mp h media b takes

theorem not_listed_of_parameters {schema : Json} (h : parametersSchema op = some schema)
    (types : List Json) : ¬Listed op types := by
  rintro ⟨none, -⟩
  rw [parametersSchema_eq_none_iff.mpr none] at h
  cases h

theorem parametersSchema_plain {schema : Json} (h : parametersSchema op = some schema) :
    schema.get? "type" = some (.str "object") ∧
      ∃ properties, schema.get? "properties" = some (.obj properties) := by
  unfold parametersSchema at h
  dsimp only at h
  split at h
  · cases h
  · cases h
    exact ⟨rfl, _, rfl⟩

theorem wrapper_plain (e : Envelope) (b : Json) (description : Option Json) :
    (e.wrapper b description).get? "type" = some (.str "object") ∧
      ∃ properties, (e.wrapper b description).get? "properties" = some (.obj properties) := by
  cases description <;> exact ⟨rfl, _, rfl⟩

/-- A body alone: it is wrapped, or it keeps its own type and properties. -/
theorem ofObject_alone (none : served op = []) {media : String} {b : Json}
    (takes : op.TakesBody media b) (description : Option Json) :
    OfObject op (e.alone b description) := by
  have only : ∀ media' b', op.TakesBody media' b' → b' = b := by
    intro media' b' takes'
    have same := (Operation.jsonBody_eq_some_iff.mpr takes').symm.trans
      (Operation.jsonBody_eq_some_iff.mpr takes)
    cases same
    rfl
  by_cases object : hasProperties b = true
  · have bare : e.alone b description = described b description := if_pos object
    obtain ⟨type, properties, found, -⟩ := hasProperties_iff.mp object
    rw [bare]
    refine ⟨⟨properties, ?_⟩, ?_, ?_⟩
    · rw [get?_described _ _ (by decide), found]
    · rw [get?_described _ _ (by decide)]
      constructor
      · rintro plain types ⟨-, media', b', takes', -, list⟩
        rw [only media' b' takes', plain] at list
        cases list
      · intro plain
        rcases type with text | ⟨types, list, -⟩
        · exact text
        · exact absurd ⟨none, media, b, takes, object, list⟩ (plain types)
    · rintro types ⟨-, media', b', takes', -, list⟩
      rw [only media' b' takes'] at list
      rw [get?_described _ _ (by decide)]
      refine ⟨list, ?_⟩
      rcases type with text | ⟨types', list', named⟩
      · rw [text] at list
        cases list
      · rw [list] at list'
        cases list'
        exact named
  · have wrapped : e.alone b description = e.wrapper b description := if_neg object
    obtain ⟨type, properties, found⟩ := e.wrapper_plain b description
    rw [wrapped]
    refine .of_plain type found ?_
    rintro types ⟨-, media', b', takes', object', -⟩
    rw [only media' b' takes'] at object'
    exact object object'

/-- Whatever is composed for an operation is the schema of an object with properties. -/
theorem ofObject_compose {schema : Json} (h : e.compose op = some schema) :
    OfObject op schema := by
  have composes := e.compose_composes op
  rw [h] at composes
  cases composes with
  | parameters parameters bodiless =>
    obtain ⟨type, properties, found⟩ := parametersSchema_plain parameters
    exact .of_plain type found (not_listed_of_bodiless bodiless)
  | body none body =>
    rw [bodySchema_eq, Option.map_eq_some_iff] at body
    obtain ⟨⟨media, b⟩, takes, rfl⟩ := body
    exact ofObject_alone none (Operation.jsonBody_eq_some_iff.mp takes) _
  | both parameters body =>
    exact .of_plain rfl rfl (not_listed_of_parameters parameters)

end Envelope

/-! ### The schemas of a catalog -/

/-- The schema of a tool is what is composed for its operation, or the empty one when nothing is. -/
theorem Compiler.schema_of_tool {c : Compiler} {op : Operation} {t : Tool} (h : c.tool op = .ok t) :
    c.envelope.compose op = some (.obj t.definition.schema) ∨
      c.envelope.compose op = none ∧ t.definition.schema = emptySchema := by
  unfold Compiler.tool at h
  split at h
  · cases h
  · dsimp only at h
    split at h
    · next none =>
      cases h
      exact Or.inr ⟨none, rfl⟩
    · next schema composed =>
      cases h
      exact Or.inl composed
    · cases h

/-- Every tool of a catalog has the schema of an object with properties. The type is the plain text
`object` exactly when no body stands alone that lists its types; in that case the type is the list,
which names `object`. -/
theorem catalog_schemas {c : Compiler} {d : Document} {catalog : Catalog}
    (h : c.catalog d = .ok catalog) {t : Tool} (ht : t ∈ catalog) :
    Envelope.OfObject t.operation (.obj t.definition.schema) := by
  obtain ⟨op, -, made⟩ := Except.exists_mem_of_mapM h ht
  rw [(Compiler.tool_spec made).1]
  rcases Compiler.schema_of_tool made with composed | ⟨none, schema⟩
  · exact Envelope.ofObject_compose composed
  · have bodiless : op.jsonBody = .none := by
      have composes := c.envelope.compose_composes op
      rw [none] at composes
      cases composes with
      | nothing _ body => exact body
    rw [schema]
    exact .of_plain rfl rfl (Envelope.not_listed_of_bodiless bodiless)

/-! ### A body of several types -/

namespace Compiler

/-- A description whose only operation takes an object or nothing. -/
def nullable : Document :=
  ⟨.object [("paths", .object [("/a", .object [("post", .object [("operationId", .str "x"),
    ("requestBody", .object [("content", .object [("application/json", .object [("schema",
      .object [("type", .arr [.str "object", .str "null"]),
        ("properties", .object [("name", .object [("type", .str "string")])])])])])])])])])]⟩

/-- The type that the only tool of a catalog gives for its arguments. -/
def onlyType? (catalog : Catalog) : Option Json :=
  match catalog with
  | [t] => t.definition.schema.get? "type"
  | _ => none

theorem exists_nullable : ∃ catalog, usual.catalog nullable = .ok catalog ∧
    ((onlyType? catalog).bind Json.arr?).isSome = true :=
  Except.exists_of_any (p := fun c => ((onlyType? c).bind Json.arr?).isSome) (by decide +kernel)

theorem exists_tool_of_nullable : ∃ catalog t types, usual.catalog nullable = .ok catalog ∧
    t ∈ catalog ∧ t.definition.schema.get? "type" = some (.arr types) := by
  obtain ⟨catalog, h, some⟩ := exists_nullable
  obtain ⟨types, found⟩ := Option.isSome_iff_exists.mp some
  obtain ⟨type, only, list⟩ := Option.bind_eq_some_iff.mp found
  rw [Json.arr?_eq_some_iff] at list
  unfold onlyType? at only
  split at only
  · next t =>
    refine ⟨[t], t, types, h, List.mem_singleton_self t, ?_⟩
    rw [← list]
    exact only
  · cases only

end Compiler

/-- The statement for a body of several types. -/
theorem catalog_schemas_nullable :
    ∃ catalog t, Compiler.usual.catalog Compiler.nullable = .ok catalog ∧ t ∈ catalog ∧
      Envelope.OfObject t.operation (.obj t.definition.schema) := by
  obtain ⟨catalog, t, -, h, ht, -⟩ := Compiler.exists_tool_of_nullable
  exact ⟨catalog, t, h, ht, catalog_schemas h ht⟩

/-- A body that takes an object or nothing gives a tool whose type is no text. -/
theorem catalog_lists_types :
    ∃ d catalog t, Compiler.usual.catalog d = .ok catalog ∧ t ∈ catalog ∧
      t.definition.schema.get? "type" ≠ some (.str "object") := by
  obtain ⟨catalog, t, types, h, ht, list⟩ := Compiler.exists_tool_of_nullable
  refine ⟨Compiler.nullable, catalog, t, h, ht, ?_⟩
  rw [list]
  intro plain
  cases plain

end ToolGateway
