import ToolGateway.Operation.Arguments
import ToolGateway.Proofs.Json.Within

/-!
# Where the arguments of a call go

The values of parameters are read from one object: the one under the parameters key of an envelope,
or the arguments themselves when the operation has parameters and no JSON body. A value comes into
the part for a location exactly when a parameter of its name is declared there and the value is not
null, and a body is sent exactly when the operation takes one and the call gives its content
(`decompose_routed`). So no key of a call reaches a part that does not declare it.
-/

namespace ToolGateway

theorem Json.isNull_iff {v : Json} : v.isNull = true ↔ v = .null := by
  cases v <;> simp [Json.isNull]

/-! ### The JSON body of an operation -/

namespace Operation

/-- An operation takes a JSON body: among the contents of its request body this is the first entry
with a JSON media type and a schema. -/
def TakesBody (op : Operation) (media : String) (schema : Json) : Prop :=
  ∃ body content before entry after, op.body.getObj? "requestBody" = some body ∧
    body.get? "content" = some (.obj content) ∧
    content.entries = before ++ (media, entry) :: after ∧
    MediaType.offersJson media = true ∧ entry.get? "schema" = some schema ∧
    ∀ m ∈ before, MediaType.offersJson m.1 = true → m.2.get? "schema" = none

/-- What an entry of a request body's content offers by itself. -/
def offer (m : String × Json) : Option (String × Json) :=
  if MediaType.offersJson m.1 then (m.2.get? "schema").map (m.1, ·) else none

theorem offer_eq_some_iff {m : String × Json} {media : String} {schema : Json} :
    offer m = some (media, schema) ↔
      m.1 = media ∧ MediaType.offersJson media = true ∧ m.2.get? "schema" = some schema := by
  unfold offer
  split
  · next h =>
    rw [Option.map_eq_some_iff]
    constructor
    · rintro ⟨found, hv, he⟩
      cases he
      exact ⟨rfl, h, hv⟩
    · rintro ⟨rfl, -, hv⟩
      exact ⟨schema, hv, rfl⟩
  · next h =>
    refine ⟨nofun, ?_⟩
    rintro ⟨rfl, ho, -⟩
    exact absurd ho h

theorem offer_eq_none_iff {m : String × Json} :
    offer m = none ↔ (MediaType.offersJson m.1 = true → m.2.get? "schema" = none) := by
  unfold offer
  split
  · next h => simp [h]
  · next h => simp [h]

theorem jsonBody_eq_findSome? (op : Operation) :
    op.jsonBody = (op.body.getObj? "requestBody").bind fun body =>
      ((body.get? "content").bind Json.obj?).bind fun content => content.entries.findSome? offer :=
  rfl

theorem jsonBody_eq_some_iff {op : Operation} {media : String} {schema : Json} :
    op.jsonBody = some (media, schema) ↔ op.TakesBody media schema := by
  simp only [jsonBody_eq_findSome?, Option.bind_eq_some_iff, List.findSome?_eq_some_iff,
    offer_eq_some_iff, offer_eq_none_iff, Json.obj?_eq_some_iff]
  constructor
  · rintro ⟨body, hbody, content, ⟨_, hc, rfl⟩, before, entry, after, he, ⟨rfl, ho, hs⟩, hb⟩
    exact ⟨body, content, before, entry.2, after, hbody, hc, he, ho, hs, hb⟩
  · rintro ⟨body, content, before, entry, after, hbody, hc, he, ho, hs, hb⟩
    exact ⟨body, hbody, content, ⟨_, hc, rfl⟩, before, _, after, he, ⟨rfl, ho, hs⟩, hb⟩

theorem jsonBody_eq_none_iff {op : Operation} :
    op.jsonBody = none ↔ ∀ media schema, ¬ op.TakesBody media schema := by
  simp only [← jsonBody_eq_some_iff, Option.eq_none_iff_forall_ne_some, Ne, Prod.forall]

end Operation

/-! ### Parts of the arguments -/

theorem Parameter.location_eq_some_iff {p : Parameter} {l : Location} :
    p.location = some l ↔ p.declaredIn = l.name := by
  unfold location Location.ofName?
  constructor
  · intro h
    split at h <;> cases h <;> assumption
  · intro h
    rw [h]
    cases l <;> rfl

/-- The parameter is declared under a name for a location. -/
def Parameter.Fills (p : Parameter) (l : Location) (name : String) : Prop :=
  p.name = name ∧ p.declaredIn = l.name

instance (p : Parameter) (l : Location) (name : String) : Decidable (p.Fills l name) :=
  inferInstanceAs (Decidable (_ ∧ _))

/-- The values of a request for a location. -/
def Request.part (r : Request) : Location → Json.Members
  | .path => r.pathValues
  | .query => r.query
  | .header => r.headers
  | .cookie => r.cookies

namespace Arguments

/-- The values for a location. -/
def part (a : Arguments) : Location → Json.Members
  | .path => a.path
  | .query => a.query
  | .header => a.header
  | .cookie => a.cookie

theorem part_toRequest (a : Arguments) (op : Operation) (l : Location) :
    (a.toRequest op).part l = a.part l := by
  cases l <;> rfl

@[simp] theorem part_none (l : Location) : none.part l = .empty := by
  cases l <;> rfl

@[simp] theorem payload_none : none.payload = Option.none := rfl

theorem part_insert (a : Arguments) (l m : Location) (name : String) (v : Json) :
    (a.insert l name v).part m = if l = m then (a.part m).insert name v else a.part m := by
  cases l <;> cases m <;> rfl

@[simp] theorem payload_insert (a : Arguments) (l : Location) (name : String) (v : Json) :
    (a.insert l name v).payload = a.payload := by
  cases l <;> rfl

theorem isEmpty_iff (a : Arguments) :
    a.isEmpty = true ↔ (∀ l, (a.part l).entries = []) ∧ a.payload = Option.none := by
  simp only [isEmpty, Bool.and_eq_true, Dict.isEmpty_iff, Option.isNone_iff_eq_none]
  constructor
  · rintro ⟨⟨⟨⟨hp, hq⟩, hh⟩, hc⟩, hb⟩
    refine ⟨fun l => ?_, hb⟩
    cases l <;> assumption
  · rintro ⟨h, hb⟩
    exact ⟨⟨⟨⟨h .path, h .query⟩, h .header⟩, h .cookie⟩, hb⟩

/-! ### Values of parameters -/

/-- What an object gives for a parameter of a name: its value there, unless that is null. -/
def given (values : Json.Members) (name : String) : Option Json :=
  (values.get? name).filter (!·.isNull)

theorem given_eq_some_iff {values : Json.Members} {name : String} {v : Json} :
    given values name = some v ↔ values.get? name = some v ∧ v ≠ .null := by
  rw [given, Option.filter_eq_some_iff, Bool.not_eq_true', ← Bool.not_eq_true, Json.isNull_iff]

/-- One more parameter. -/
def place (values : Json.Members) (a : Arguments) (p : Parameter) : Arguments :=
  match p.location, values.get? p.name with
  | some location, some v => if v.isNull then a else a.insert location p.name v
  | _, _ => a

theorem gather_eq_foldl (parameters : List Parameter) (values : Json.Members) :
    gather parameters values = parameters.foldl (place values) none := rfl

theorem place_eq (values : Json.Members) (a : Arguments) (p : Parameter) :
    place values a p = match p.location, given values p.name with
      | some l, some v => a.insert l p.name v
      | _, _ => a := by
  unfold place given
  cases p.location with
  | none => rfl
  | some l =>
    cases values.get? p.name with
    | none => rfl
    | some v => cases hv : v.isNull <;> simp [Option.filter, hv]

theorem payload_place (values : Json.Members) (a : Arguments) (p : Parameter) :
    (place values a p).payload = a.payload := by
  rw [place_eq]
  split
  · rw [payload_insert]
  · rfl

/-- One more parameter changes what is found in its own part under its own name. -/
theorem get?_part_place (values : Json.Members) (a : Arguments) (p : Parameter) (l : Location)
    (name : String) :
    ((place values a p).part l).get? name =
      if p.Fills l name then (given values name).or ((a.part l).get? name)
      else (a.part l).get? name := by
  rw [place_eq]
  by_cases h : p.Fills l name
  · obtain ⟨rfl, hl⟩ := h
    rw [if_pos ⟨rfl, hl⟩, Parameter.location_eq_some_iff.mpr hl]
    cases given values p.name with
    | none => rfl
    | some v =>
      dsimp only
      rw [part_insert, if_pos rfl, Dict.get?_insert, if_pos rfl, Option.some_or]
  · rw [if_neg h]
    split
    · next m v hm hv =>
      rw [part_insert]
      split
      · next e =>
        subst e
        have hn : p.name ≠ name := fun e => h ⟨e, Parameter.location_eq_some_iff.mp hm⟩
        rw [Dict.get?_insert, if_neg hn]
      · rfl
    · rfl

theorem nodup_keys_place {values : Json.Members} {a : Arguments} {p : Parameter} {l : Location}
    (h : (a.part l).keys.Nodup) : ((place values a p).part l).keys.Nodup := by
  rw [place_eq]
  split
  · rw [part_insert]
    split
    · exact Dict.nodup_keys_insert h
    · exact h
  · exact h

/-- Many parameters: what is found is what is given for one of them, else what was there before. -/
theorem get?_part_foldl (values : Json.Members) (parameters : List Parameter) (a : Arguments)
    (l : Location) (name : String) :
    ((parameters.foldl (place values) a).part l).get? name =
      if ∃ p ∈ parameters, p.Fills l name then (given values name).or ((a.part l).get? name)
      else (a.part l).get? name := by
  induction parameters generalizing a with
  | nil => simp
  | cons p parameters ih =>
    rw [List.foldl_cons, ih, get?_part_place]
    by_cases hp : p.Fills l name
    · -- The value of a name is the same for every parameter, so giving it again changes nothing.
      cases given values name <;> simp [hp]
    · simp [hp]

theorem payload_foldl (values : Json.Members) (parameters : List Parameter) (a : Arguments) :
    (parameters.foldl (place values) a).payload = a.payload := by
  induction parameters generalizing a with
  | nil => rfl
  | cons p parameters ih => rw [List.foldl_cons, ih, payload_place]

theorem nodup_keys_foldl {values : Json.Members} {parameters : List Parameter} {a : Arguments}
    {l : Location} (h : (a.part l).keys.Nodup) :
    ((parameters.foldl (place values) a).part l).keys.Nodup := by
  induction parameters generalizing a with
  | nil => exact h
  | cons p parameters ih => exact ih (nodup_keys_place h)

theorem nodup_keys_gather (parameters : List Parameter) (values : Json.Members) (l : Location) :
    ((gather parameters values).part l).keys.Nodup := by
  rw [gather_eq_foldl]
  apply nodup_keys_foldl
  rw [part_none]
  exact List.nodup_nil

theorem payload_gather (parameters : List Parameter) (values : Json.Members) :
    (gather parameters values).payload = Option.none := by
  rw [gather_eq_foldl, payload_foldl, payload_none]

/-- A value is in a part exactly when a parameter is declared there under its name, and it is given
for that name. -/
theorem mem_part_gather {parameters : List Parameter} {values : Json.Members} {l : Location}
    {name : String} {v : Json} :
    (name, v) ∈ ((gather parameters values).part l).entries ↔
      (∃ p ∈ parameters, p.Fills l name) ∧ given values name = some v := by
  rw [← Dict.get?_eq_some_iff (nodup_keys_gather parameters values l), gather_eq_foldl,
    get?_part_foldl, part_none, Dict.get?_empty, Option.or_none]
  split
  · next h => exact (and_iff_right h).symm
  · next h => exact ⟨nofun, fun e => absurd e.1 h⟩

theorem part_withPayload (a : Arguments) (payload : Option Payload) (l : Location) :
    { a with payload := payload }.part l = a.part l := by
  cases l <;> rfl

end Arguments

/-- A value of an object belongs into the part for a location: a parameter of the operation is
declared there under the name of the value, and the value is not null. -/
def Operation.Places (op : Operation) (values : Json.Members) (l : Location) (name : String)
    (v : Json) : Prop :=
  (∃ p ∈ op.parameters, p.Fills l name) ∧ values.get? name = some v ∧ v ≠ .null

theorem Arguments.mem_part_gather_iff {op : Operation} {values : Json.Members} {l : Location}
    {name : String} {v : Json} :
    (name, v) ∈ ((gather op.parameters values).part l).entries ↔ op.Places values l name v :=
  mem_part_gather.trans (and_congr_right fun _ => given_eq_some_iff)

namespace Envelope

variable {e : Envelope} {op : Operation} {arguments : Json.Members}

/-! ### Arguments inside and outside of an envelope -/

/-- Arguments are in an envelope when one of its keys is there. -/
def Wraps (e : Envelope) (arguments : Json.Members) : Prop :=
  arguments.contains e.parametersKey = true ∨ arguments.contains e.bodyKey = true

theorem payloadOf_eq_some_iff {content : Json} {p : Payload} :
    payloadOf op content = some p ↔
      (∃ schema, op.TakesBody p.contentType schema) ∧ p.content = content := by
  simp only [payloadOf, Option.map_eq_some_iff, Prod.exists, Operation.jsonBody_eq_some_iff]
  constructor
  · rintro ⟨media, schema, h, rfl⟩
    exact ⟨⟨schema, h⟩, rfl⟩
  · rintro ⟨⟨schema, h⟩, rfl⟩
    exact ⟨p.contentType, schema, h, rfl⟩

theorem part_unpack (l : Location) :
    (e.unpack op arguments).part l =
      ((arguments.get? e.parametersKey).bind Json.obj?).elim .empty fun values =>
        (Arguments.gather op.parameters values).part l := by
  unfold unpack
  cases arguments.get? e.bodyKey
  all_goals
    cases arguments.get? e.parametersKey with
    | none => cases l <;> rfl
    | some v => cases v <;> cases l <;> rfl

theorem mem_part_unpack {l : Location} {name : String} {v : Json} :
    (name, v) ∈ ((e.unpack op arguments).part l).entries ↔
      ∃ values, arguments.get? e.parametersKey = some (.obj values) ∧
        op.Places values l name v := by
  have found : ∀ values, arguments.get? e.parametersKey = some (.obj values) ↔
      (arguments.get? e.parametersKey).bind Json.obj? = some values := by
    simp [Option.bind_eq_some_iff, Json.obj?_eq_some_iff]
  simp only [part_unpack, found]
  cases (arguments.get? e.parametersKey).bind Json.obj? with
  | none => simp [Dict.empty]
  | some values => simp [Arguments.mem_part_gather_iff]

theorem nodup_keys_unpack (l : Location) : ((e.unpack op arguments).part l).keys.Nodup := by
  rw [part_unpack]
  cases (arguments.get? e.parametersKey).bind Json.obj? with
  | none => exact List.nodup_nil
  | some values => exact Arguments.nodup_keys_gather _ _ l

theorem payload_unpack :
    (e.unpack op arguments).payload = (arguments.get? e.bodyKey).bind (payloadOf op) := by
  unfold unpack
  cases arguments.get? e.bodyKey with
  | some content => rfl
  | none =>
    dsimp only
    split
    · exact Arguments.payload_gather _ _
    · rfl

/-- The ways to split the arguments of a call. -/
inductive Splits (e : Envelope) (op : Operation) (arguments : Json.Members) : Arguments → Prop
  | wrapped (inside : e.Wraps arguments) : Splits e op arguments (e.unpack op arguments)
  | parameters (outside : ¬ e.Wraps arguments) (declared : op.parameters ≠ [])
      (bodiless : op.jsonBody = none) :
      Splits e op arguments (Arguments.gather op.parameters arguments)
  | body (outside : ¬ e.Wraps arguments) (alone : op.parameters = []) :
      Splits e op arguments { Arguments.none with payload := payloadOf op (.obj arguments) }
  | both (outside : ¬ e.Wraps arguments) (declared : op.parameters ≠ [])
      (takes : op.jsonBody ≠ none) : Splits e op arguments Arguments.none

theorem decompose_splits (e : Envelope) (op : Operation) (arguments : Json.Members) :
    Splits e op arguments (e.decompose op (some arguments)) := by
  unfold decompose
  dsimp only
  split
  · next h => exact .wrapped (by simpa [Wraps] using h)
  · next h =>
    have outside : ¬ e.Wraps arguments := by simpa [Wraps] using h
    cases hp : op.parameters.isEmpty with
    | true =>
      -- An operation that takes no body sends none, whatever its content would be.
      have body := Splits.body outside (List.isEmpty_iff.mp hp)
      cases hb : op.jsonBody with
      | none =>
        rw [payloadOf, hb] at body
        exact body
      | some _ => exact body
    | false =>
      have declared : op.parameters ≠ [] := by simpa using hp
      cases hb : op.jsonBody with
      | none => exact .parameters outside declared hb
      | some _ => exact .both outside declared (by simp [hb])

/-! ### Where values come from -/

/-- The object that the values of parameters are read from: in an envelope what stands under its
parameters key; otherwise the arguments themselves, when the operation has parameters and takes no
JSON body. -/
inductive Reads (e : Envelope) (op : Operation) (arguments : Json.Members) : Json.Members → Prop
  | wrapped {values : Json.Members} (found : arguments.get? e.parametersKey = some (.obj values)) :
      Reads e op arguments values
  | flat (outside : ¬ e.Wraps arguments) (declared : op.parameters ≠ [])
      (bodiless : ∀ media schema, ¬ op.TakesBody media schema) : Reads e op arguments arguments

/-- The content of a body: in an envelope what stands under its body key; otherwise the arguments
themselves, when the operation has no parameters. -/
inductive Sends (e : Envelope) (op : Operation) (arguments : Json.Members) : Json → Prop
  | wrapped {content : Json} (found : arguments.get? e.bodyKey = some content) :
      Sends e op arguments content
  | flat (outside : ¬ e.Wraps arguments) (alone : op.parameters = []) :
      Sends e op arguments (.obj arguments)

theorem Reads.iff_of_wraps (h : e.Wraps arguments) {values : Json.Members} :
    e.Reads op arguments values ↔ arguments.get? e.parametersKey = some (.obj values) := by
  constructor
  · rintro (⟨found⟩ | ⟨outside⟩)
    · exact found
    · exact absurd h outside
  · exact .wrapped

theorem Reads.eq_of_not_wraps (h : ¬ e.Wraps arguments) {values : Json.Members}
    (reads : e.Reads op arguments values) :
    values = arguments ∧ op.parameters ≠ [] ∧ op.jsonBody = none := by
  cases reads with
  | wrapped found => exact absurd (Or.inl (Dict.contains_of_get? found)) h
  | flat _ declared bodiless => exact ⟨rfl, declared, Operation.jsonBody_eq_none_iff.mpr bodiless⟩

theorem Sends.iff_of_wraps (h : e.Wraps arguments) {content : Json} :
    e.Sends op arguments content ↔ arguments.get? e.bodyKey = some content := by
  constructor
  · rintro (⟨found⟩ | ⟨outside⟩)
    · exact found
    · exact absurd h outside
  · exact .wrapped

theorem Sends.eq_of_not_wraps (h : ¬ e.Wraps arguments) {content : Json}
    (sends : e.Sends op arguments content) : content = .obj arguments ∧ op.parameters = [] := by
  cases sends with
  | wrapped found => exact absurd (Or.inr (Dict.contains_of_get? found)) h
  | flat _ alone => exact ⟨rfl, alone⟩

theorem mem_part_decompose {l : Location} {name : String} {v : Json} :
    (name, v) ∈ ((e.decompose op (some arguments)).part l).entries ↔
      ∃ values, e.Reads op arguments values ∧ op.Places values l name v := by
  have splits := e.decompose_splits op arguments
  generalize e.decompose op (some arguments) = a at splits
  cases splits with
  | wrapped inside => simp only [mem_part_unpack, Reads.iff_of_wraps inside]
  | parameters outside declared bodiless =>
    rw [Arguments.mem_part_gather_iff]
    constructor
    · exact fun placed =>
        ⟨_, .flat outside declared (Operation.jsonBody_eq_none_iff.mp bodiless), placed⟩
    · rintro ⟨values, reads, placed⟩
      obtain ⟨rfl, -⟩ := reads.eq_of_not_wraps outside
      exact placed
  | body outside alone =>
    rw [Arguments.part_withPayload, Arguments.part_none]
    refine ⟨nofun, ?_⟩
    rintro ⟨values, reads, -⟩
    exact absurd alone (reads.eq_of_not_wraps outside).2.1
  | both outside declared takes =>
    rw [Arguments.part_none]
    refine ⟨nofun, ?_⟩
    rintro ⟨values, reads, -⟩
    exact absurd (reads.eq_of_not_wraps outside).2.2 takes

theorem payload_decompose_eq_some_iff {p : Payload} :
    (e.decompose op (some arguments)).payload = some p ↔
      (∃ schema, op.TakesBody p.contentType schema) ∧ e.Sends op arguments p.content := by
  have splits := e.decompose_splits op arguments
  generalize e.decompose op (some arguments) = a at splits
  cases splits with
  | wrapped inside =>
    rw [payload_unpack, Option.bind_eq_some_iff, Sends.iff_of_wraps inside]
    simp only [payloadOf_eq_some_iff]
    constructor
    · rintro ⟨content, found, takes, rfl⟩
      exact ⟨takes, found⟩
    · rintro ⟨takes, found⟩
      exact ⟨_, found, takes, rfl⟩
  | parameters outside declared bodiless =>
    rw [Arguments.payload_gather]
    refine ⟨nofun, ?_⟩
    rintro ⟨-, sends⟩
    exact absurd (sends.eq_of_not_wraps outside).2 declared
  | body outside alone =>
    rw [payloadOf_eq_some_iff]
    refine and_congr_right fun _ => ⟨fun h => h ▸ .flat outside alone, fun sends => ?_⟩
    exact (sends.eq_of_not_wraps outside).1
  | both outside declared takes =>
    refine ⟨nofun, ?_⟩
    rintro ⟨-, sends⟩
    exact absurd (sends.eq_of_not_wraps outside).2 declared

theorem nodup_keys_decompose (l : Location) :
    ((e.decompose op (some arguments)).part l).keys.Nodup := by
  have splits := e.decompose_splits op arguments
  generalize e.decompose op (some arguments) = a at splits
  cases splits with
  | wrapped inside => exact nodup_keys_unpack l
  | parameters outside declared bodiless => exact Arguments.nodup_keys_gather _ _ l
  | body outside alone =>
    rw [Arguments.part_withPayload, Arguments.part_none]
    exact List.nodup_nil
  | both outside declared takes =>
    rw [Arguments.part_none]
    exact List.nodup_nil

/-! ### Every value in its place -/

/-- What the arguments of a call are split into. -/
structure Routed (e : Envelope) (op : Operation) (arguments : Json.Members) (a : Arguments) :
    Prop where
  /-- A value is in the part for a location exactly when it is read under its name, is not null, and
  a parameter of that name is declared for that location. -/
  part : ∀ l name v, (name, v) ∈ (a.part l).entries ↔
    ∃ values, e.Reads op arguments values ∧ op.Places values l name v
  distinct : ∀ l, (a.part l).keys.Nodup
  /-- A body is sent exactly when the operation takes one, under its first JSON media type with a
  schema, and with the content that the call gives. -/
  payload : ∀ p, a.payload = some p ↔
    (∃ schema, op.TakesBody p.contentType schema) ∧ e.Sends op arguments p.content
  /-- No other key of a call reaches the request. -/
  declared : ∀ l, ∀ name ∈ ((a.toRequest op).part l).keys, ∃ p ∈ op.parameters, p.Fills l name

/-- For every operation and every envelope, the arguments of a call are split as declared: nothing
is invented, nothing is lost, and nothing comes into a part where it does not belong. -/
theorem decompose_routed (e : Envelope) (op : Operation) (arguments : Json.Members) :
    Routed e op arguments (e.decompose op (some arguments)) where
  part := fun _ _ _ => mem_part_decompose
  distinct := nodup_keys_decompose
  payload := fun _ => payload_decompose_eq_some_iff
  declared := by
    intro l name h
    rw [Arguments.part_toRequest] at h
    obtain ⟨⟨_, v⟩, hm, rfl⟩ := List.mem_map.mp h
    obtain ⟨values, -, declared, -⟩ := mem_part_decompose.mp hm
    exact declared

end Envelope

end ToolGateway
