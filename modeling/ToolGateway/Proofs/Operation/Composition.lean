import ToolGateway.Proofs.Operation.Routing
import ToolGateway.Settings.Basic

/-!
# What the schema of the arguments says

A body that is no object with properties is wrapped under the body key, so that it can stand alone,
and the wrapper comes off again inside an envelope. What comes off is recognised by its looks only:
a schema with one property that is named like the body key. So the schema that an envelope has under
its body key is that of the body exactly when the body does not look like a wrapper itself
(`published_body_iff`).
-/

namespace ToolGateway

namespace Json

/-! ### Properties of schemas -/

/-- What a schema says of a property. -/
def property? (schema : Json) (name : String) : Option Json :=
  (schema.getObj? "properties").bind (·.get? name)

theorem getObj?_eq_some_iff {v : Json} {key : String} {ms : Members} :
    v.getObj? key = some ms ↔ v.get? key = some (.obj ms) := by
  simp [getObj?, Option.bind_eq_some_iff, obj?_eq_some_iff]

theorem sizeOf_get?_lt {v w : Json} {key : String} (h : v.get? key = some w) :
    sizeOf w < sizeOf v := by
  cases v with
  | obj ms =>
    have := Dict.sizeOf_get?_lt (show ms.get? key = some w from h)
    simp only [obj.sizeOf_spec]
    omega
  | _ => cases h

/-- A property of a schema is smaller than the schema. -/
theorem sizeOf_property?_lt {schema v : Json} {name : String} (h : schema.property? name = some v) :
    sizeOf v < sizeOf schema := by
  obtain ⟨ps, hps, h⟩ := Option.bind_eq_some_iff.mp h
  have outer := sizeOf_get?_lt (getObj?_eq_some_iff.mp hps)
  have inner := sizeOf_get?_lt (show (Json.obj ps).get? name = some v from h)
  exact Nat.lt_trans inner outer

theorem property?_object (type : Json) (properties : Members) (rest : List (String × Json))
    (name : String) :
    (object (("type", type) :: ("properties", .obj properties) :: rest)).property? name =
      properties.get? name := rfl

theorem property?_ne_self (schema : Json) (name : String) :
    schema.property? name ≠ some schema :=
  fun h => Nat.lt_irrefl _ (sizeOf_property?_lt h)

end Json

namespace Envelope

variable {e : Envelope} {op : Operation}

/-! ### Schemas with a description -/

/-- The schema stands for a body's schema: it is that one, up to a description for an object with
properties that has none. -/
inductive StandsFor (b : Json) : Json → Prop
  | same : StandsFor b b
  | described {ms : Json.Members} {description : Json} (object : b = .obj ms)
      (properties : hasProperties b = true) (lacks : ms.contains "description" = false) :
      StandsFor b (.obj (ms.insert "description" description))

/-- A description is no property. -/
theorem StandsFor.properties_eq {b schema : Json} (h : StandsFor b schema) :
    schema.getObj? "properties" = b.getObj? "properties" := by
  cases h with
  | same => rfl
  | described object properties lacks =>
    subst object
    rw [Json.getObj?, Json.getObj?, Json.get?, Json.get?, Dict.get?_insert, if_neg (by decide)]

theorem standsFor_described {b : Json} (h : hasProperties b = true) (description : Option Json) :
    StandsFor b (described b description) := by
  unfold described
  split
  · next ms d =>
    split
    · exact .same
    · next lacks => exact .described rfl h (by simpa using lacks)
  · exact .same

/-- A judgement of values by schemas in which descriptions do not count. -/
def Unannotated (admits : Json → Json → Prop) : Prop :=
  ∀ (ms : Json.Members) (description v : Json), ms.contains "description" = false →
    (admits (.obj (ms.insert "description" description)) v ↔ admits (.obj ms) v)

theorem StandsFor.admits_iff {admits : Json → Json → Prop} (ha : Unannotated admits)
    {b schema : Json} (h : StandsFor b schema) (v : Json) : admits schema v ↔ admits b v := by
  cases h with
  | same => exact Iff.rfl
  | described object properties lacks =>
    subst object
    exact ha _ _ v lacks

/-! ### Wrappers -/

/-- The schema of an object that holds a body under the body key. -/
def wrapper (e : Envelope) (b : Json) (description : Option Json) : Json :=
  .object ([("type", .str "object")] ++ (description.map (("description", ·))).toList ++
    [("properties", .object [(e.bodyKey, b)]), ("required", Json.strings [e.bodyKey])])

/-- The schema of a body looks like a wrapper: an object with one property, named like the body key.
-/
def LooksWrapped (e : Envelope) (b : Json) : Prop :=
  hasProperties b = true ∧ ∃ inner, b.getObj? "properties" = some ⟨[(e.bodyKey, inner)]⟩

theorem unwrapped_of_single {schema inner : Json}
    (h : schema.getObj? "properties" = some ⟨[(e.bodyKey, inner)]⟩) :
    e.unwrapped schema = inner := by
  rw [unwrapped, Json.getObj?_eq_some_iff.mp h]
  simp [Dict.size, Dict.get?, Dict.lookup]

theorem unwrapped_of_not_single {schema : Json}
    (h : ∀ inner, schema.getObj? "properties" ≠ some ⟨[(e.bodyKey, inner)]⟩) :
    e.unwrapped schema = schema := by
  unfold unwrapped
  split
  · next ps hps =>
    split
    · next single =>
      obtain ⟨⟨k, v⟩, hv⟩ := List.length_eq_one_iff.mp single
      -- The only property has another name, so nothing is found under the body key.
      have other : k ≠ e.bodyKey := by
        rintro rfl
        refine h v (Json.getObj?_eq_some_iff.mpr ?_)
        rw [hps, ← hv]
      rw [Dict.get?, hv, Dict.lookup, if_neg other]
      rfl
    · rfl
  · rfl

theorem unwrapped_wrapper (b : Json) (description : Option Json) :
    e.unwrapped (e.wrapper b description) = b := by
  apply unwrapped_of_single
  cases description <;> rfl

/-! ### The two parts of a schema -/

/-- The description that an operation gives of its request body. -/
def bodyDescription (op : Operation) : Option Json :=
  (op.body.getObj? "requestBody").bind (·.get? "description")

/-- The schema of a body by itself. -/
def alone (e : Envelope) (b : Json) (description : Option Json) : Json :=
  if hasProperties b then described b description else e.wrapper b description

theorem bodySchema_eq (e : Envelope) (op : Operation) :
    e.bodySchema op = op.jsonBody.map fun (_, b) => e.alone b (bodyDescription op) := by
  unfold bodySchema bodyDescription
  cases hr : op.body.getObj? "requestBody" with
  | none =>
    rw [Operation.jsonBody_eq_findSome?, hr]
    rfl
  | some body =>
    cases op.jsonBody with
    | none => rfl
    | some found =>
      unfold alone
      by_cases h : hasProperties found.2 = true <;> simp [h, wrapper]

theorem bodySchema_eq_none_iff : e.bodySchema op = none ↔ op.jsonBody = none := by
  rw [bodySchema_eq, Option.map_eq_none_iff]

theorem bodySchema_of_takesBody {media : String} {b : Json} (h : op.TakesBody media b) :
    e.bodySchema op = some (e.alone b (bodyDescription op)) := by
  rw [bodySchema_eq, Operation.jsonBody_eq_some_iff.mpr h]
  rfl

theorem mem_served {p : Parameter} :
    p ∈ served op ↔ p ∈ op.parameters ∧ ∃ l : Location, p.declaredIn = l.name := by
  rw [served, List.mem_filter, Option.isSome_iff_exists]
  simp only [Parameter.location_eq_some_iff]

theorem parametersSchema_eq_none_iff : parametersSchema op = none ↔ served op = [] := by
  unfold parametersSchema
  dsimp only
  split
  · next h => simpa [Dict.isEmpty_ofList] using h
  · next h => simpa [Dict.isEmpty_ofList] using h

/-- The properties of the parameters' schema are the names of the parameters that are served. -/
theorem isSome_property?_parametersSchema {schema : Json} (h : parametersSchema op = some schema)
    {name : String} :
    (schema.property? name).isSome = true ↔ ∃ p ∈ served op, p.name = name := by
  unfold parametersSchema at h
  dsimp only at h
  split at h
  · cases h
  · cases h
    rw [List.cons_append, List.cons_append, Json.property?_object, ← Dict.contains,
      Dict.contains_ofList]
    simp

/-! ### The whole schema -/

/-- The schema of an envelope. -/
def envelopeSchema (e : Envelope) (parameters body : Json) : Json :=
  .object [("type", .str "object"),
    ("properties", .obj (Dict.ofList [(e.parametersKey, parameters), (e.bodyKey, body)])),
    ("required", Json.strings [e.parametersKey, e.bodyKey])]

theorem property?_envelopeSchema_bodyKey (e : Envelope) (parameters body : Json) :
    (e.envelopeSchema parameters body).property? e.bodyKey = some body := by
  rw [envelopeSchema, Json.property?_object]
  simp [Dict.ofList]

/-- The ways to compose the schema of the arguments. -/
inductive Composes (e : Envelope) (op : Operation) : Option Json → Prop
  | nothing (parameters : served op = []) (body : op.jsonBody = none) : Composes e op none
  | parameters {schema : Json} (parameters : parametersSchema op = some schema)
      (body : op.jsonBody = none) : Composes e op (some schema)
  | body {schema : Json} (parameters : served op = []) (body : e.bodySchema op = some schema) :
      Composes e op (some schema)
  | both {ofParameters ofBody : Json} (parameters : parametersSchema op = some ofParameters)
      (body : e.bodySchema op = some ofBody) :
      Composes e op (some (e.envelopeSchema ofParameters (e.unwrapped ofBody)))

theorem compose_composes (e : Envelope) (op : Operation) : Composes e op (e.compose op) := by
  unfold compose
  split
  · next hp hb => exact .both hp hb
  · next hp hb => exact .parameters hp (bodySchema_eq_none_iff.mp hb)
  · next hp =>
    rw [parametersSchema_eq_none_iff] at hp
    cases hb : e.bodySchema op with
    | none => exact .nothing hp (bodySchema_eq_none_iff.mp hb)
    | some schema => exact .body hp hb

/-! ### The body in an envelope -/

/-- What an envelope has under its body key stands for the body's schema exactly when that one does
not look like a wrapper. -/
theorem standsFor_unwrapped_iff (e : Envelope) (b : Json) (description : Option Json) :
    StandsFor b (e.unwrapped (e.alone b description)) ↔ ¬ e.LooksWrapped b := by
  by_cases object : hasProperties b = true
  · have bare : e.alone b description = described b description := if_pos object
    have stands := standsFor_described object description
    rw [bare]
    constructor
    · rintro unwrapped ⟨-, inner, single⟩
      rw [unwrapped_of_single (stands.properties_eq.trans single)] at unwrapped
      -- What is inside of the body's schema would have itself as a property.
      refine Json.property?_ne_self inner e.bodyKey ?_
      rw [Json.property?, unwrapped.properties_eq, single]
      simp [Dict.get?, Dict.lookup]
    · intro looks
      rw [unwrapped_of_not_single]
      · exact stands
      · intro inner single
        exact looks ⟨object, inner, stands.properties_eq.symm.trans single⟩
  · have wrapped : e.alone b description = e.wrapper b description := if_neg object
    rw [wrapped, unwrapped_wrapper]
    exact ⟨fun _ looks => object looks.1, fun _ => .same⟩

/-- With parameters and a body there is an envelope, and the body's schema is in it without its
wrapper. -/
theorem exists_compose_of_both (e : Envelope) {op : Operation} {p : Parameter}
    (hp : p ∈ op.parameters) {l : Location} (hl : p.declaredIn = l.name) {media : String} {b : Json}
    (hb : op.TakesBody media b) :
    ∃ schema, e.compose op = some schema ∧
      schema.property? e.bodyKey = some (e.unwrapped (e.alone b (bodyDescription op))) := by
  have served : served op ≠ [] := List.ne_nil_of_mem (mem_served.mpr ⟨hp, l, hl⟩)
  have body := bodySchema_of_takesBody (e := e) hb
  have composes := e.compose_composes op
  generalize e.compose op = composed at composes
  cases composes with
  | nothing parameters => exact absurd parameters served
  | parameters parameters none =>
    rw [bodySchema_eq_none_iff.mpr none] at body
    cases body
  | body parameters => exact absurd parameters served
  | both parameters ofBody =>
    rw [body] at ofBody
    cases ofBody
    exact ⟨_, rfl, property?_envelopeSchema_bodyKey e _ _⟩

/-- What an envelope says of the body of an operation. -/
structure PublishesBody (e : Envelope) (op : Operation) (media : String)
    (b schema published : Json) : Prop where
  composed : e.compose op = some schema
  under : schema.property? e.bodyKey = some published
  /-- It is the schema of the body, unless that one looks like a wrapper. -/
  stands : StandsFor b published ↔ ¬ e.LooksWrapped b
  /-- Then a value for what is published is a value for the body, … -/
  admits : ¬ e.LooksWrapped b → ∀ admits, Unannotated admits → ∀ v, admits published v → admits b v
  /-- … and that value is sent as it is. -/
  sent : ∀ arguments content, arguments.get? e.bodyKey = some content →
    (e.decompose op (some arguments)).payload = some ⟨media, content⟩

end Envelope

namespace Operation.Sample

/-- An operation with parameters of some names and locations, and with a JSON body or none. -/
def operation (parameters : List (String × String)) (schema : Option Json) : Operation :=
  .ofItem "/users" "POST" .empty (.object ([
    ("parameters",
      .arr (parameters.map fun p => .object [("name", .str p.1), ("in", .str p.2)]))] ++
    (schema.map fun b => ("requestBody", .object [("content", .object [
      ("application/json", .object [("schema", b)])])])).toList)) ⟨.null⟩

/-- The schema of an object with some properties, all of them texts. -/
def texts (names : List String) : Json :=
  .object [("type", .str "object"),
    ("properties", .object (names.map fun name => (name, .object [("type", .str "string")])))]

theorem takesBody_operation (parameters : List (String × String)) (b : Json) :
    (operation parameters (some b)).TakesBody "application/json" b :=
  ⟨_, _, [], _, [], rfl, rfl, rfl, by decide +kernel, rfl, nofun⟩

/-- An operation with a parameter in the query and a JSON body. -/
def create (b : Json) : Operation := operation [("notify", "query")] (some b)

theorem mem_parameters_create (b : Json) :
    ⟨"notify", "query", false, none, .obj .empty⟩ ∈ (create b).parameters :=
  List.mem_cons_self

end Operation.Sample

open Envelope in
/-- For every operation with parameters and a JSON body: what the envelope has under its body key is
the schema of the body, up to a description, exactly when that schema does not look like a wrapper.
-/
theorem published_body_iff (e : Envelope) {op : Operation} {p : Parameter} (hp : p ∈ op.parameters)
    {l : Location} (hl : p.declaredIn = l.name) {media : String} {b : Json}
    (hb : op.TakesBody media b) :
    ∃ schema published, e.PublishesBody op media b schema published := by
  obtain ⟨schema, composed, under⟩ := e.exists_compose_of_both hp hl hb
  have stands := e.standsFor_unwrapped_iff b (bodyDescription op)
  refine ⟨schema, _, composed, under, stands, ?_, ?_⟩
  · intro looks admits unannotated v
    exact ((stands.mpr looks).admits_iff unannotated v).mp
  · intro arguments content found
    exact payload_decompose_eq_some_iff.mpr ⟨⟨b, hb⟩, .wrapped found⟩

open Operation.Sample in
/-- The statement for a body with two properties, one of them named like the body key. -/
theorem published_body_iff_texts :
    let b := texts ["requestBody", "name"]
    ⟨"notify", "query", false, none, .obj .empty⟩ ∈ (create b).parameters ∧
      (create b).TakesBody "application/json" b ∧
      ∃ schema published,
        Envelope.usual.PublishesBody (create b) "application/json" b schema published :=
  ⟨mem_parameters_create _, takesBody_operation _ _,
    published_body_iff .usual (mem_parameters_create _) (l := .query) rfl (takesBody_operation _ _)⟩

open Envelope Operation.Sample in
/-- A body whose only property is named like the body key: what is published is the schema of that
property, and so not that of the body. -/
theorem publishes_property_of_body :
    let b := texts ["requestBody"]
    Envelope.usual.parametersKey ≠ Envelope.usual.bodyKey ∧
      ⟨"notify", "query", false, none, .obj .empty⟩ ∈ (create b).parameters ∧
      (create b).TakesBody "application/json" b ∧
      ∃ schema published, Envelope.usual.compose (create b) = some schema ∧
        schema.property? Envelope.usual.bodyKey = some published ∧
        published = .object [("type", .str "string")] ∧ ¬ StandsFor b published := by
  intro b
  have looks : Envelope.usual.LooksWrapped b := ⟨by decide +kernel, _, rfl⟩
  have takes : (create b).TakesBody "application/json" b := takesBody_operation _ b
  obtain ⟨schema, composed, under⟩ := Envelope.usual.exists_compose_of_both
    (mem_parameters_create b) (l := .query) rfl takes
  have stands := Envelope.usual.standsFor_unwrapped_iff b (bodyDescription (create b))
  exact ⟨by decide, mem_parameters_create b, takes, schema, _, composed, under, rfl,
    fun published => stands.mp published looks⟩

end ToolGateway
