import ToolGateway.Proofs.Operation.Composition

/-!
# One layout for the schema and for the arguments

The schema of the arguments is flat when it is that of the parameters alone, or that of a body alone
which is an object with properties. Arguments without a key of an envelope are read in the layout of
their flat schema, with one exception: a body is left out when the operation has parameters, even if
they are not served and the schema does not show them (`decompose_same_layout`).

Arguments with a key of an envelope are read as an envelope, also when the flat schema has a
property of that name. So flat arguments come back exactly when they have no such key
(`flat_arguments_return_iff`).
-/

namespace ToolGateway

namespace Envelope

variable {e : Envelope} {op : Operation} {schema : Json} {arguments : Json.Members}

/-! ### Flat schemas -/

/-- The schema of the arguments is that of the parameters alone. -/
structure OnlyParameters (e : Envelope) (op : Operation) (schema : Json) : Prop where
  composed : e.compose op = some schema
  parameters : parametersSchema op = some schema
  bodiless : e.bodySchema op = none

/-- The schema of the arguments is that of a body alone, which is an object with properties. -/
structure OnlyBody (e : Envelope) (op : Operation) (schema : Json) : Prop where
  composed : e.compose op = some schema
  unserved : parametersSchema op = none
  body : e.bodySchema op = some schema
  object : ∃ media b, op.TakesBody media b ∧ hasProperties b = true

theorem OnlyParameters.declared (h : e.OnlyParameters op schema) : op.parameters ≠ [] := by
  intro none
  have unserved : parametersSchema op = .none := by
    rw [parametersSchema_eq_none_iff, served, none, List.filter_nil]
  rw [h.parameters] at unserved
  cases unserved

theorem OnlyParameters.not_takesBody (h : e.OnlyParameters op schema) (media : String) (b : Json) :
    ¬ op.TakesBody media b :=
  Operation.jsonBody_eq_none_iff.mp (bodySchema_eq_none_iff.mp h.bodiless) media b

/-- Every property of a schema of parameters is a parameter that is served. -/
theorem OnlyParameters.exists_parameter (h : e.OnlyParameters op schema) {name : String}
    (property : (schema.property? name).isSome = true) :
    ∃ p ∈ op.parameters, ∃ l : Location, p.name = name ∧ p.declaredIn = l.name := by
  obtain ⟨p, hp, hn⟩ := (isSome_property?_parametersSchema h.parameters).mp property
  obtain ⟨hp, l, hl⟩ := mem_served.mp hp
  exact ⟨p, hp, l, hn, hl⟩

/-! ### Arguments in a layout -/

/-- The arguments are read as the values of parameters, and there is no body. -/
structure AsParameters (op : Operation) (values : Json.Members) (a : Arguments) : Prop where
  part : ∀ l name v, (name, v) ∈ (a.part l).entries ↔ op.Places values l name v
  bodiless : a.payload = none

/-- The arguments are the content of a body, and there is nothing else. -/
structure AsBody (op : Operation) (content : Json) (a : Arguments) : Prop where
  part : ∀ l, (a.part l).entries = []
  payload : ∃ media schema, op.TakesBody media schema ∧ a.payload = some ⟨media, content⟩

/-- A location without parameters gets no values. -/
theorem part_decompose_eq_nil {l : Location} (h : ∀ p ∈ op.parameters, p.declaredIn ≠ l.name) :
    ((e.decompose op (some arguments)).part l).entries = [] := by
  rw [List.eq_nil_iff_forall_not_mem]
  rintro ⟨name, v⟩ mem
  obtain ⟨values, -, ⟨p, hp, -, hl⟩, -⟩ := mem_part_decompose.mp mem
  exact h p hp hl

/-- An operation that takes no body is sent none. -/
theorem payload_decompose_eq_none (h : ∀ media b, ¬ op.TakesBody media b) :
    (e.decompose op (some arguments)).payload = none := by
  rw [Option.eq_none_iff_forall_ne_some]
  intro p sent
  obtain ⟨⟨b, takes⟩, -⟩ := payload_decompose_eq_some_iff.mp sent
  exact h _ _ takes

theorem asParameters_decompose (h : e.OnlyParameters op schema) (outside : ¬ e.Wraps arguments) :
    AsParameters op arguments (e.decompose op (some arguments)) where
  part := by
    intro l name v
    rw [mem_part_decompose]
    constructor
    · rintro ⟨values, reads, placed⟩
      obtain ⟨rfl, -⟩ := reads.eq_of_not_wraps outside
      exact placed
    · exact fun placed => ⟨_, .flat outside h.declared h.not_takesBody, placed⟩
  bodiless := payload_decompose_eq_none h.not_takesBody

theorem asBody_decompose_iff (h : e.OnlyBody op schema) (outside : ¬ e.Wraps arguments) :
    AsBody op (.obj arguments) (e.decompose op (some arguments)) ↔ op.parameters = [] := by
  constructor
  · rintro ⟨-, media, b, -, sent⟩
    exact ((payload_decompose_eq_some_iff.mp sent).2.eq_of_not_wraps outside).2
  · intro alone
    obtain ⟨media, b, takes, -⟩ := h.object
    refine ⟨fun l => part_decompose_eq_nil ?_, media, b, takes, ?_⟩
    · simp [alone]
    · exact payload_decompose_eq_some_iff.mpr ⟨⟨b, takes⟩, .flat outside alone⟩

/-- Nothing is made of arguments when there is no schema for them. -/
theorem isEmpty_decompose (h : e.compose op = none) (arguments : Json.Members) :
    (e.decompose op (some arguments)).isEmpty = true := by
  have composes := e.compose_composes op
  rw [h] at composes
  cases composes with
  | nothing unserved bodiless =>
    rw [Arguments.isEmpty_iff]
    refine ⟨fun l => part_decompose_eq_nil ?_, payload_decompose_eq_none ?_⟩
    · intro p hp hl
      exact List.ne_nil_of_mem (mem_served.mpr ⟨hp, l, hl⟩) unserved
    · exact Operation.jsonBody_eq_none_iff.mp bodiless

/-! ### Flat arguments with a key of an envelope -/

/-- The arguments are read as the values of parameters, and every one of them comes into a part. -/
structure Returns (op : Operation) (arguments : Json.Members) (a : Arguments) : Prop extends
    AsParameters op arguments a where
  routed : ∀ name v, arguments.get? name = some v → ∃ l, (name, v) ∈ (a.part l).entries

/-- In an envelope the values come from further inside, so that its own keys come into no part. -/
theorem Returns.not_wraps (h : Returns op arguments (e.decompose op (some arguments))) :
    ¬ e.Wraps arguments := by
  intro inside
  have outer : ∀ name v, arguments.get? name = some v → ∃ values,
      arguments.get? e.parametersKey = some (.obj values) ∧ values.get? name = some v := by
    intro name v found
    obtain ⟨l, mem⟩ := h.routed name v found
    obtain ⟨values, reads, -, inner, -⟩ := mem_part_decompose.mp mem
    exact ⟨values, (Reads.iff_of_wraps inside).mp reads, inner⟩
  obtain ⟨name, has⟩ : ∃ name, arguments.contains name = true := inside.elim (⟨_, ·⟩) (⟨_, ·⟩)
  obtain ⟨v, found⟩ := Option.isSome_iff_exists.mp has
  obtain ⟨values, found, -⟩ := outer name v found
  obtain ⟨again, same, inner⟩ := outer _ _ found
  cases found.symm.trans same
  exact Nat.lt_irrefl _ (Json.sizeOf_get?_lt (show (Json.obj values).get? _ = _ from inner))

/-- The arguments are properties of the schema, and none of them is null. -/
structure Fits (schema : Json) (arguments : Json.Members) : Prop where
  known : ∀ name, arguments.contains name = true → (schema.property? name).isSome = true
  present : ∀ name v, arguments.get? name = some v → v ≠ .null

theorem Fits.of_entries
    (h : ∀ m ∈ arguments.entries, (schema.property? m.1).isSome = true ∧ m.2 ≠ .null) :
    Fits schema arguments where
  known := by
    intro name has
    obtain ⟨m, hm, rfl⟩ := List.mem_map.mp (Dict.mem_keys_iff.mpr has)
    exact (h m hm).1
  present := fun _ _ found => (h _ (Dict.mem_of_lookup found)).2

theorem returns_iff (h : e.OnlyParameters op schema) (fits : Fits schema arguments) :
    Returns op arguments (e.decompose op (some arguments)) ↔ ¬ e.Wraps arguments := by
  refine ⟨Returns.not_wraps, fun outside => ⟨asParameters_decompose h outside, ?_⟩⟩
  intro name v found
  obtain ⟨p, hp, l, hn, hl⟩ := h.exists_parameter (fits.known name (Dict.contains_of_get? found))
  refine ⟨l, ((asParameters_decompose h outside).part l name v).mpr ?_⟩
  exact ⟨⟨p, hp, hn, hl⟩, found, fits.present name v found⟩

/-- The content of a body in an envelope is smaller than the envelope. -/
theorem AsBody.not_wraps (h : AsBody op (.obj arguments) (e.decompose op (some arguments))) :
    ¬ e.Wraps arguments := by
  intro inside
  obtain ⟨media, b, -, sent⟩ := h.payload
  have found := (Sends.iff_of_wraps inside).mp (payload_decompose_eq_some_iff.mp sent).2
  exact Nat.lt_irrefl _ (Json.sizeOf_get?_lt (show (Json.obj arguments).get? _ = _ from found))

end Envelope

/-! ### Operations with flat schemas -/

namespace Operation.Sample

open Envelope

/-- One name in the path and in the query, and another name. -/
def find : Operation := operation [("id", "path"), ("id", "query"), ("limit", "query")] none

def findArguments : Json.Members := ⟨[("id", .int 7), ("limit", .int 10)]⟩

theorem exists_onlyParameters_find : ∃ schema, Envelope.usual.OnlyParameters find schema ∧
    Fits schema findArguments := by
  refine ⟨_, ⟨rfl, rfl, rfl⟩, .of_entries ?_⟩
  exact List.forall_mem_cons.mpr ⟨⟨rfl, nofun⟩, List.forall_mem_singleton.mpr ⟨rfl, nofun⟩⟩

theorem not_wraps_find : ¬ Envelope.usual.Wraps findArguments := not_or.mpr ⟨by decide, by decide⟩

/-- A body with one property, and parameters. -/
def register (parameters : List (String × String)) (property : String) : Operation :=
  operation parameters (some (texts [property]))

/-- When no parameter is served, the schema is that of the body alone. -/
theorem exists_onlyBody_register {parameters : List (String × String)} {property : String}
    (unserved : parametersSchema (register parameters property) = none) {v : Json}
    (hv : v ≠ .null) : ∃ schema, Envelope.usual.OnlyBody (register parameters property) schema ∧
      Fits schema ⟨[(property, v)]⟩ := by
  have body : Envelope.usual.bodySchema (register parameters property) =
      some (texts [property]) := rfl
  have known : (texts [property]).property? property = some (.object [("type", .str "string")]) :=
    if_pos rfl
  refine ⟨texts [property], ⟨?_, unserved, body, _, _, takesBody_operation _ _, rfl⟩,
    .of_entries (List.forall_mem_singleton.mpr ⟨by rw [known]; rfl, hv⟩)⟩
  rw [compose, unserved, body]

def registerArguments : Json.Members := ⟨[("name", .str "Ann")]⟩

theorem not_wraps_register : ¬ Envelope.usual.Wraps registerArguments :=
  not_or.mpr ⟨by decide, by decide⟩

/-- An argument with the name of an envelope's key. -/
def lookalike : Json.Members := ⟨[("parameters", .str "x")]⟩

theorem wraps_lookalike : Envelope.usual.Wraps lookalike := Or.inl (by decide)

end Operation.Sample

open Envelope Operation.Sample

/-! ### The layout of arguments outside of an envelope -/

/-- Arguments without a key of an envelope are read in the layout of their schema: as parameters
when the schema is that of the parameters alone; as the body when it is that of the body alone,
exactly if the operation has no parameters at all. Without a schema nothing is made of any
arguments. -/
theorem decompose_same_layout (e : Envelope) (op : Operation) :
    (∀ schema arguments, e.OnlyParameters op schema → ¬ e.Wraps arguments →
      AsParameters op arguments (e.decompose op (some arguments))) ∧
    (∀ schema arguments, e.OnlyBody op schema → ¬ e.Wraps arguments →
      (AsBody op (.obj arguments) (e.decompose op (some arguments)) ↔ op.parameters = [])) ∧
    (e.compose op = none → ∀ arguments, (e.decompose op (some arguments)).isEmpty = true) :=
  ⟨fun _ _ => asParameters_decompose, fun _ _ => asBody_decompose_iff, isEmpty_decompose⟩

/-- The statement for an operation of each kind; the last one has a parameter that is not served. -/
theorem decompose_same_layout_samples :
    (∃ schema, Envelope.usual.OnlyParameters find schema ∧ ¬ Envelope.usual.Wraps findArguments ∧
      AsParameters find findArguments (Envelope.usual.decompose find (some findArguments))) ∧
    (∃ schema, Envelope.usual.OnlyBody (register [] "name") schema ∧
      ¬ Envelope.usual.Wraps registerArguments ∧
      (AsBody (register [] "name") (.obj registerArguments)
          (Envelope.usual.decompose (register [] "name") (some registerArguments)) ↔
        (register [] "name").parameters = [])) ∧
    (Envelope.usual.compose (operation [("f", "formData")] none) = none ∧
      (Envelope.usual.decompose (operation [("f", "formData")] none)
        (some registerArguments)).isEmpty = true) := by
  obtain ⟨ofFind, flat, -⟩ := exists_onlyParameters_find
  obtain ⟨ofRegister, bare, -⟩ : ∃ schema, Envelope.usual.OnlyBody (register [] "name") schema ∧
    Fits schema registerArguments := exists_onlyBody_register rfl nofun
  have nothing : Envelope.usual.compose (operation [("f", "formData")] none) = none := rfl
  refine ⟨⟨ofFind, flat, not_wraps_find, ?_⟩, ⟨ofRegister, bare, not_wraps_register, ?_⟩,
    nothing, ?_⟩
  · exact (decompose_same_layout _ _).1 _ _ flat not_wraps_find
  · exact (decompose_same_layout _ _).2.1 _ _ bare not_wraps_register
  · exact (decompose_same_layout _ _).2.2 nothing _

/-- A parameter that is not served hides the body of a call: the schema is that of the body alone,
and nothing is made of the arguments. -/
theorem decompose_drops_body :
    ∃ schema, Envelope.usual.OnlyBody (register [("f", "formData")] "name") schema ∧
      ¬ Envelope.usual.Wraps registerArguments ∧
      (Envelope.usual.decompose (register [("f", "formData")] "name")
        (some registerArguments)).isEmpty = true ∧
      ¬ AsBody (register [("f", "formData")] "name") (.obj registerArguments)
        (Envelope.usual.decompose (register [("f", "formData")] "name")
          (some registerArguments)) := by
  obtain ⟨schema, bare, -⟩ : ∃ schema,
      Envelope.usual.OnlyBody (register [("f", "formData")] "name") schema ∧
        Fits schema registerArguments := exists_onlyBody_register rfl nofun
  refine ⟨schema, bare, not_wraps_register, by decide +kernel, fun read => ?_⟩
  exact List.cons_ne_nil _ _ ((asBody_decompose_iff bare not_wraps_register).mp read)

/-! ### Flat arguments that come back -/

/-- Arguments that are properties of a flat schema come back as what they are, each to its parameter
or all as the body, exactly when none of their keys is one of the envelope. -/
theorem flat_arguments_return_iff (e : Envelope) (op : Operation) {schema : Json}
    {arguments : Json.Members} (fits : Fits schema arguments) :
    (e.OnlyParameters op schema →
      (Returns op arguments (e.decompose op (some arguments)) ↔ ¬ e.Wraps arguments)) ∧
    (e.OnlyBody op schema → op.parameters = [] →
      (AsBody op (.obj arguments) (e.decompose op (some arguments)) ↔ ¬ e.Wraps arguments)) := by
  refine ⟨fun h => returns_iff h fits, fun h alone => ⟨AsBody.not_wraps, fun outside => ?_⟩⟩
  exact (asBody_decompose_iff h outside).mpr alone

/-- The statement for parameters of one name in two places, and for a body. -/
theorem flat_arguments_return_iff_samples :
    (∃ schema, Fits schema findArguments ∧ Envelope.usual.OnlyParameters find schema ∧
      (Returns find findArguments (Envelope.usual.decompose find (some findArguments)) ↔
        ¬ Envelope.usual.Wraps findArguments)) ∧
    (∃ schema, Fits schema registerArguments ∧
      Envelope.usual.OnlyBody (register [] "name") schema ∧ (register [] "name").parameters = [] ∧
      (AsBody (register [] "name") (.obj registerArguments)
          (Envelope.usual.decompose (register [] "name") (some registerArguments)) ↔
        ¬ Envelope.usual.Wraps registerArguments)) := by
  constructor
  · obtain ⟨schema, flat, fits⟩ := exists_onlyParameters_find
    exact ⟨schema, fits, flat, (flat_arguments_return_iff _ _ fits).1 flat⟩
  · obtain ⟨schema, bare, fits⟩ : ∃ schema, Envelope.usual.OnlyBody (register [] "name") schema ∧
      Fits schema registerArguments := exists_onlyBody_register rfl nofun
    exact ⟨schema, fits, bare, rfl, (flat_arguments_return_iff _ _ fits).2 bare rfl⟩

/-- Flat arguments that are taken for an envelope: a parameter or a property of the body has the
name of one of its keys, and nothing is made of the arguments. -/
theorem flat_arguments_lost :
    (∃ schema, Envelope.usual.OnlyParameters (operation [("parameters", "query")] none) schema ∧
      Fits schema lookalike ∧
      ¬ Returns (operation [("parameters", "query")] none) lookalike
        (Envelope.usual.decompose (operation [("parameters", "query")] none) (some lookalike))) ∧
    (∃ schema, Envelope.usual.OnlyBody (register [] "parameters") schema ∧
      (register [] "parameters").parameters = [] ∧ Fits schema lookalike ∧
      ¬ AsBody (register [] "parameters") (.obj lookalike)
        (Envelope.usual.decompose (register [] "parameters") (some lookalike))) := by
  constructor
  · refine ⟨_, ⟨rfl, rfl, rfl⟩, .of_entries ?_, fun back => back.not_wraps wraps_lookalike⟩
    exact List.forall_mem_singleton.mpr ⟨rfl, nofun⟩
  · obtain ⟨schema, bare, fits⟩ : ∃ schema,
      Envelope.usual.OnlyBody (register [] "parameters") schema ∧ Fits schema lookalike :=
        exists_onlyBody_register rfl nofun
    exact ⟨schema, bare, rfl, fits, fun back => back.not_wraps wraps_lookalike⟩

end ToolGateway
