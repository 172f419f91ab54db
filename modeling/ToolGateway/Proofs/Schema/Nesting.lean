import ToolGateway.Proofs.Schema.Passes

/-!
# Discriminators inside variants

A variant is a copy of a component, and the discriminators nested in it are flattened by later
passes. These take their variants from components that earlier passes have rewritten: a component
that is a choice itself has lost its properties in the first pass (`exists_bare_passed`), any other
one still declares what it declared (`exists_declaring_passed`). So the branch for a mapping entry
narrows the property that the target declares when the place is flattened in the first pass, or when
the target is no choice, and only then (`nested_branch`).
-/

namespace ToolGateway.Schema.Discriminator

variable {node : Json.Members} {property value : String} {mapping : Json.Members}

/-! ### Components from pass to pass -/

section

variable {d : Document} {schemas target : Json.Members} {name : String}

theorem declares_iff : declares node property = true ↔
    ∃ props v, node.get? "properties" = some (.obj props) ∧ props.get? property = some v := by
  unfold declares
  split
  · next props there => simp [there, Dict.contains, Option.isSome_iff_exists]
  · next other =>
    constructor
    · intro declared
      cases declared
    · rintro ⟨props, -, there, -⟩
      exact absurd there (other props)

theorem isOpen_swapErase (keys : node.keys.Nodup) : IsOpen (node.swapErase "discriminator") :=
  Dict.contains_eq_false_iff.mpr (Dict.get?_swapErase_self keys)

/-- What lasts of a component after the first pass is found in the later ones. -/
theorem Lasting.exists_component {p : Json.Members → Prop} (h : Lasting p) {m : Json.Members}
    (there : Route IsOpen (.part .document) (Discriminator.passed 1 d).root
      ["components", "schemas", name] .schema (.obj m)) (hp : p m) (k : Nat) :
    ∃ schemas m, (Discriminator.passed (k + 1) d).schemas = some schemas ∧
      schemas.get? name = some (.obj m) ∧ p m := by
  obtain ⟨m, there, hp⟩ := h.passed (Nat.le_add_left 1 k) there hp
    fun _ _ _ => spared_component _ name
  obtain ⟨schemas, hs, known⟩ := route_component_iff.mp there
  exact ⟨schemas, m, hs, known, hp⟩

/-- A component that is a choice has lost its properties after the first pass. -/
theorem exists_bare_passed (distinct : d.root.Distinct) (hs : d.schemas = some schemas)
    (known : schemas.get? name = some (.obj target)) (choice : IsChoice target property mapping)
    (k : Nat) :
    ∃ schemas' m, (passed (k + 1) d).schemas = some schemas' ∧
      schemas'.get? name = some (.obj m) ∧ Bare m := by
  have route := route_component_iff.mpr ⟨schemas, hs, known⟩
  obtain ⟨m, there, flat⟩ := exists_isOneOf_pass distinct route choice (spared_component _ name)
  have through : IsOpen m := Dict.contains_eq_false_iff.mpr flat.discriminator
  exact lasting_bare.exists_component there ⟨Or.inr through, flat.properties⟩ k

/-- A discriminator without a property name or a mapping is only removed. -/
theorem flatten_of_not_isChoice (own : node.contains "$ref" = false)
    (has : node.contains "discriminator" = true)
    (h : ∀ property mapping, ¬IsChoice node property mapping) :
    (flatten schemas node).1 = node.swapErase "discriminator" := by
  obtain ⟨v, there⟩ := Option.isSome_iff_exists.mp has
  simp only [flatten, there]
  split
  · next property mapping named mapped =>
    exact absurd ⟨own, v, there, named, mapped⟩ (h property mapping)
  · rfl

/-- A component that is no choice declares in every pass what it declared. -/
theorem exists_declaring_passed (distinct : d.root.Distinct) (hs : d.schemas = some schemas)
    (known : schemas.get? name = some (.obj target))
    (plain : ∀ property mapping, ¬IsChoice target property mapping)
    (declared : declares target property = true) (k : Nat) :
    ∃ schemas' m, (passed (k + 1) d).schemas = some schemas' ∧
      schemas'.get? name = some (.obj m) ∧ Declaring property m := by
  have route := route_component_iff.mpr ⟨schemas, hs, known⟩
  have first : ∃ m, Route IsOpen (.part .document) (passed 1 d).root
      ["components", "schemas", name] .schema (.obj m) ∧ Declaring property m := by
    by_cases rests : Rests target
    · exact (lasting_declaring property).pass route ⟨rests, declares_iff.mp declared⟩
        (spared_component _ name)
    · -- Otherwise the pass takes its discriminator away, and nothing else.
      obtain ⟨own, has⟩ := not_or.mp rests
      rw [Bool.not_eq_true] at own
      rw [IsOpen, Bool.not_eq_false] at has
      have keys := route.nodup_keys distinct
      obtain ⟨m, alike, there⟩ := exists_flatten_pass route own has (spared_component _ name)
      rw [flatten_of_not_isChoice own has plain] at alike
      refine ⟨m, there, (lasting_declaring property).stored alike
        ⟨Or.inr (isOpen_swapErase keys), ?_⟩⟩
      rw [Dict.get?_swapErase_of_ne keys (by decide)]
      exact declares_iff.mp declared
  obtain ⟨m, there, declaring⟩ := first
  exact (lasting_declaring property).exists_component there declaring k

end

/-- A component that declares a property still does in the first pass, and in a later one when it is
no choice. -/
theorem exists_declares_passed {d : Document} (distinct : d.root.Distinct)
    {schemas target : Json.Members} {name : String} (hs : d.schemas = some schemas)
    (known : schemas.get? name = some (.obj target)) (declared : declares target property = true)
    {k : Nat} (first : k = 0 ∨ ∀ property mapping, ¬IsChoice target property mapping) :
    ∃ schemas' m, (passed k d).schemas = some schemas' ∧ schemas'.get? name = some (.obj m) ∧
      declares m property = true := by
  cases k with
  | zero => exact ⟨schemas, target, hs, known, declared⟩
  | succ k =>
    have plain := first.resolve_left (Nat.succ_ne_zero k)
    obtain ⟨schemas', m, hs, known, declaring⟩ :=
      exists_declaring_passed distinct hs known plain declared k
    exact ⟨schemas', m, hs, known, declares_iff.mpr declaring.2⟩

theorem nodup_keys_passed {d : Document} (distinct : d.root.Distinct) {k : Nat}
    {schemas target : Json.Members} {name : String} (hs : (passed k d).schemas = some schemas)
    (known : schemas.get? name = some (.obj target)) : target.keys.Nodup :=
  ((Document.distinct_schemas (distinct_passed distinct k) hs).get? known).keys

/-! ### The variant for an entry -/

section

variable {schemas schema : Json.Members} {b : Json}

theorem IsVariant.exists_fixes (h : IsVariant schemas property (value, schema) b)
    (keys : schema.keys.Nodup) (declared : declares schema property = true) :
    ∃ m, b = .obj m ∧ Fixes property value m := by
  obtain ⟨props, v, there, -⟩ := declares_iff.mp declared
  have there' : (schema.swapErase "discriminator").get? "properties" = some (.obj props) := by
    rw [Dict.get?_swapErase_of_ne keys (by decide), there]
  cases h with
  | direct _ =>
    refine ⟨_, rfl, ?_⟩
    simp only [narrowed, there']
    refine ⟨Or.inr ((isOpen_swapErase keys).replace _ (by decide)),
      props.insert property (constant value), ?_, ?_⟩
    · exact Dict.get?_replace_self (Dict.contains_of_get? there')
    · rw [Dict.get?_insert, if_pos rfl]
  | composed undeclared _ _ | plain undeclared _ =>
    rw [declared] at undeclared
    cases undeclared

theorem IsVariant.exists_bare (h : IsVariant schemas property (value, schema) b)
    (keys : schema.keys.Nodup) (bare : Bare schema) : ∃ m, b = .obj m ∧ Bare m := by
  cases h with
  | direct declared =>
    obtain ⟨props, v, there, -⟩ := declares_iff.mp declared
    rw [bare.2] at there
    cases there
  | composed _ _ _ =>
    refine ⟨_, rfl, Or.inr (Dict.contains_eq_false_iff.mpr ?_), ?_⟩
    · rw [Dict.get?_insert, if_neg (by decide), Dict.get?_swapErase_self keys]
    · rw [Dict.get?_insert, if_neg (by decide), Dict.get?_swapErase_of_ne keys (by decide)]
      exact bare.2
  | plain _ _ => exact ⟨schema, rfl, bare⟩

theorem exists_getElem?_of_forall₂ {α β : Type} {R : α → β → Prop} {xs : List α} {ys : List β}
    (h : List.Forall₂ R xs ys) {i : Nat} {x : α} (hx : xs[i]? = some x) :
    ∃ y, ys[i]? = some y ∧ R x y := by
  induction h generalizing i with
  | nil => simp at hx
  | cons here _ ih =>
    cases i with
    | zero =>
      cases hx
      exact ⟨_, rfl, here⟩
    | succ i => exact ih hx

theorem found_append_cons (value : String) (before after : List (String × Json))
    {reference : String}
    (known : schemas.get? (Document.simpleName reference) = some (.obj schema)) :
    found schemas (before ++ (value, .str reference) :: after) =
      found schemas before ++ (value, schema) :: found schemas after := by
  have here : target? schemas (.str reference) = some schema := by
    simp [target?, Json.str?, known, Json.obj?]
  simp [found, here]

/-- The variant for an entry stands behind those of the entries found before it. -/
theorem exists_variant (property value : String) (before after : List (String × Json))
    {reference : String}
    (known : schemas.get? (Document.simpleName reference) = some (.obj schema)) :
    ∃ b, (variants schemas property ⟨before ++ (value, .str reference) :: after⟩).1[
        (found schemas before).length]? = some b ∧
      IsVariant schemas property (value, schema) b := by
  apply exists_getElem?_of_forall₂ (forall₂_variants schemas property _)
  rw [found_append_cons value before after known, List.getElem?_append_right (Nat.le_refl _),
    Nat.sub_self]
  rfl

end

/-! ### The branch in the end -/

section

variable {d : Document} {k : Nat} {steps : List String} {before after : List (String × Json)}
  {reference : String} {schemas target : Json.Members}

/-- What lasts of the variant for an entry is offered in the end, where the schema was flattened. -/
theorem exists_offered (distinct : d.root.Distinct) (early : k < maxPasses)
    (route : Route IsOpen (.part .document) (passed k d).root steps .schema (.obj node))
    (choice : IsChoice node property mapping)
    (entry : mapping.entries = before ++ (value, .str reference) :: after)
    (hs : (passed k d).schemas = some schemas)
    (known : schemas.get? (Document.simpleName reference) = some (.obj target))
    (spared : ∀ j, k ≤ j → j < maxPasses → Spared (narrowings (passed j d)) steps)
    {p : Json.Members → Prop} (lasting : Lasting p)
    (becomes : ∀ b, IsVariant schemas property (value, target) b → ∃ m, b = .obj m ∧ p m) :
    ∃ m, Pointer.follow (flattenAll d).root steps = some (.obj m) ∧
      Offers ((existing node).length + (found schemas mapping.entries).length)
        ((existing node).length + (found schemas before).length) p m := by
  obtain ⟨m, there, flat⟩ := exists_isOneOf_pass (distinct_passed distinct k) route choice
    (spared k (Nat.le_refl k) early)
  rw [← passed_succ] at there
  obtain ⟨entries⟩ := mapping
  obtain rfl : entries = _ := entry
  rw [hs, Option.getD_some] at flat
  obtain ⟨b, at_, variant⟩ := exists_variant property value before after known
  obtain ⟨b, rfl, hb⟩ := becomes _ variant
  suffices Offers _ _ p _ from
    ((lasting.offers _ _).flattenAll early there this fun j hj => spared j (Nat.le_of_lt hj)).imp
      fun _ => And.imp_left Route.follow
  refine ⟨flat.own, Dict.contains_eq_false_iff.mpr flat.discriminator, _, b, flat.branches,
    ?_, ?_, hb⟩
  · rw [List.length_append, (forall₂_variants schemas property _).length_eq]
  · rw [List.getElem?_append_right (Nat.le_add_right _ _), Nat.add_sub_cancel_left]
    exact at_

end

/-- A schema whose own properties give a property one value only. -/
def Narrows (node : Json.Members) (property value : String) : Prop :=
  ∃ props v, node.get? "properties" = some (.obj props) ∧ props.get? property = some v ∧
    v.get? "enum" = some (.arr [.str value])

theorem Fixes.narrows (h : Fixes property value node) : Narrows node property value := by
  obtain ⟨-, props, there, fixed⟩ := h
  exact ⟨props, _, there, fixed, rfl⟩

theorem Bare.not_narrows (h : Bare node) : ¬Narrows node property value := by
  rintro ⟨props, -, there, -⟩
  rw [h.2] at there
  cases there

/-- Where a discriminator is flattened, the result has a branch for each mapping entry whose target
declares the property in the description as it was given. The branch narrows the property when that
is done in the first pass, or when the target is no choice itself. In a later pass a target that is
one has no properties left, so its branch narrows none. -/
theorem nested_branch {d : Document} (distinct : d.root.Distinct) {k : Nat}
    (early : k < maxPasses) {steps : List String} {node : Json.Members} {property : String}
    {mapping : Json.Members}
    (route : Route IsOpen (.part .document) (passed k d).root steps .schema (.obj node))
    (choice : IsChoice node property mapping) {before after : List (String × Json)}
    {value reference : String}
    (entry : mapping.entries = before ++ (value, .str reference) :: after)
    {schemas target : Json.Members} (hs : d.schemas = some schemas)
    (known : schemas.get? (Document.simpleName reference) = some (.obj target))
    (declared : declares target property = true)
    (spared : ∀ j, k ≤ j → j < maxPasses → Spared (narrowings (passed j d)) steps) :
    ∃ m branches b, Pointer.follow (flattenAll d).root steps = some (.obj m) ∧
      m.get? "oneOf" = some (.arr branches) ∧
      branches[(existing node).length +
        (found ((passed k d).schemas.getD .empty) before).length]? = some (.obj b) ∧
      (Narrows b property value ↔
        k = 0 ∨ ∀ property mapping, ¬IsChoice target property mapping) := by
  by_cases first : k = 0 ∨ ∀ property mapping, ¬IsChoice target property mapping
  · obtain ⟨schemas', target', hs', known', declared'⟩ :=
      exists_declares_passed distinct hs known declared first
    have keys := nodup_keys_passed distinct hs' known'
    obtain ⟨m, there, -, -, branches, b, offered, -, at_, fixed⟩ :=
      exists_offered distinct early route choice entry hs' known' spared
        (lasting_fixes property value) fun _ variant => variant.exists_fixes keys declared'
    rw [hs']
    exact ⟨m, branches, b, there, offered, at_, iff_of_true fixed.narrows first⟩
  · obtain ⟨later, choices⟩ := not_or.mp first
    obtain ⟨k, rfl⟩ := Nat.exists_eq_succ_of_ne_zero later
    push Not at choices
    obtain ⟨_, _, other⟩ := choices
    obtain ⟨schemas', target', hs', known', bare⟩ := exists_bare_passed distinct hs known other k
    have keys := nodup_keys_passed distinct hs' known'
    obtain ⟨m, there, -, -, branches, b, offered, -, at_, bare⟩ :=
      exists_offered distinct early route choice entry hs' known' spared lasting_bare
        fun _ variant => variant.exists_bare keys bare
    rw [hs']
    exact ⟨m, branches, b, there, offered, at_, iff_of_false bare.not_narrows first⟩

namespace Sample

/-- The schema of a discriminator over one schema. -/
def choosing (property value name : String) : Json.Members :=
  ⟨[("discriminator", .object [("propertyName", .str property),
    ("mapping", .object [(value, .str ("#/components/schemas/" ++ name))])])]⟩

/-- The owner of a card, who is a person. -/
def owner : Json.Members := choosing "kind" "person" "Person"

def card : Json.Members :=
  ⟨[("properties", .object [("method", .object [("type", .str "string")]), ("owner", .obj owner)])]⟩

/-- A person, who may be a choice as well. -/
def person (more : Json.Members) : Json.Members :=
  ⟨("properties", .object [("kind", .object [("type", .str "string")])]) :: more.entries⟩

def orderSchemas (more : Json.Members) : Json.Members :=
  ⟨[("Order", .obj (choosing "method" "card" "Card")), ("Card", .obj card),
    ("Person", .obj (person more)), ("Staff", kinded)]⟩

/-- A description of orders that are paid by card. -/
def orders (more : Json.Members) : Document where
  root := .object [("components", .object [("schemas", .obj (orderSchemas more))])]

/-- Where the owner of the card stands in the copy of the card that an order has. -/
def ownerSteps : List String :=
  ["components", "schemas", "Order", "oneOf", "0", "properties", "owner"]

theorem distinct_orders (more : Json.Members) (h : (Json.obj (person more)).Distinct) :
    (orders more).root.Distinct := by
  simpa [orders, orderSchemas, choosing, owner, card, kinded, Json.object,
    Json.distinct_obj_iff] using h

theorem isChoice_choosing (property value name : String) :
    IsChoice (choosing property value name) property
      ⟨[(value, .str ("#/components/schemas/" ++ name))]⟩ :=
  ⟨rfl, _, rfl, rfl, rfl⟩

theorem spared_owner (ns : List Narrowing) : Spared ns ownerSteps := by
  intro name _ first
  simp [ownerSteps] at first

/-- After the first pass the owner stands in the copy of the card. -/
theorem route_owner (more : Json.Members) (h : (Json.obj (person more)).Distinct) :
    Route IsOpen (.part .document) (passed 1 (orders more)).root ownerSteps .schema
      (.obj owner) := by
  obtain ⟨m, there, flat⟩ := exists_isOneOf_pass (distinct_orders more h)
    (route_component_iff.mpr ⟨orderSchemas more, rfl, rfl⟩)
    (isChoice_choosing "method" "card" "Card") (spared_component _ "Order")
  have known : (orderSchemas more).get?
      (Document.simpleName ("#/components/schemas/" ++ "Card")) = some (.obj card) := by
    rw [show Document.simpleName ("#/components/schemas/" ++ "Card") = "Card" by decide +kernel]
    rfl
  obtain ⟨b, at_, variant⟩ := exists_variant "method" "card" [] [] known
  cases variant with
  | composed undeclared _ _ | plain undeclared _ => cases undeclared
  | direct _ =>
    apply there.append
    have through : IsOpen m := Dict.contains_eq_false_iff.mpr flat.discriminator
    have copied : IsOpen (narrowed card "method" "card") := rfl
    apply Route.under flat.own through oneOf_mem_places flat.branches
    apply Route.item (i := 0) (by decide) at_
    apply Route.under rfl copied properties_mem_places rfl
    exact .entry rfl .here

theorem known_person (more : Json.Members) : (orderSchemas more).get?
    (Document.simpleName ("#/components/schemas/" ++ "Person")) = some (.obj (person more)) := by
  rw [show Document.simpleName ("#/components/schemas/" ++ "Person") = "Person" by decide +kernel]
  rfl

def personMapping : Json.Members := ⟨[("person", .str ("#/components/schemas/" ++ "Person"))]⟩

theorem isChoice_owner : IsChoice owner "kind" personMapping := ⟨rfl, _, rfl, rfl, rfl⟩

theorem personMapping_entries : personMapping.entries =
    [] ++ ("person", .str ("#/components/schemas/" ++ "Person")) :: [] := rfl

/-- A person without a discriminator. -/
def plainPerson : Json.Members := person .empty

/-- A person who is a choice of staff. -/
def staffPerson : Json.Members := person (choosing "kind" "staff" "Staff")

theorem distinct_plainPerson : (Json.obj plainPerson).Distinct := by
  simp [plainPerson, person, Dict.empty, Json.object, Json.distinct_obj_iff]

theorem distinct_staffPerson : (Json.obj staffPerson).Distinct := by
  simp [staffPerson, person, choosing, Json.object, Json.distinct_obj_iff]

theorem isChoice_staffPerson : IsChoice staffPerson "kind"
    ⟨[("staff", .str ("#/components/schemas/" ++ "Staff"))]⟩ :=
  ⟨rfl, _, rfl, rfl, rfl⟩

end Sample

open Sample in
/-- The statement at an owner in the copy of a card, who is a person without a discriminator. -/
theorem nested_branch_plain :
    (orders .empty).root.Distinct ∧ 1 < maxPasses ∧
      Route IsOpen (.part .document) (passed 1 (orders .empty)).root ownerSteps .schema
        (.obj owner) ∧
      declares plainPerson "kind" = true ∧
      ∃ m branches b, Pointer.follow (flattenAll (orders .empty)).root ownerSteps =
          some (.obj m) ∧
        m.get? "oneOf" = some (.arr branches) ∧ branches[0]? = some (.obj b) ∧
        Narrows b "kind" "person" := by
  have distinct := distinct_orders .empty distinct_plainPerson
  have route := route_owner .empty distinct_plainPerson
  obtain ⟨m, branches, b, there, offered, at_, narrows⟩ :=
    nested_branch distinct (by decide) route isChoice_owner personMapping_entries rfl
      (known_person .empty) rfl fun _ _ _ => spared_owner _
  refine ⟨distinct, by decide, route, rfl, m, branches, b, there, offered, at_, narrows.mpr ?_⟩
  right
  rintro property mapping ⟨-, v, has, -⟩
  cases has

open Sample in
/-- A person who is a choice is narrowed where a card has its owner, in the first pass, but not
where the copy of the card in an order has it: the second pass finds a person without
properties. -/
theorem nested_branch_lost :
    declares staffPerson "kind" = true ∧ IsChoice owner "kind" personMapping ∧
      (∃ k < maxPasses, Pointer.follow (passed k (orders (choosing "kind" "staff" "Staff"))).root
        ownerSteps = some (.obj owner)) ∧
      ∃ m branches, Pointer.follow (flattenAll (orders (choosing "kind" "staff" "Staff"))).root
          ownerSteps = some (.obj m) ∧
        m.get? "oneOf" = some (.arr branches) ∧
        ∀ b, Json.obj b ∈ branches → ¬Narrows b "kind" "person" := by
  have distinct := distinct_orders _ distinct_staffPerson
  have route := route_owner _ distinct_staffPerson
  obtain ⟨schemas, m, hs, known, bare⟩ :=
    exists_bare_passed distinct rfl (known_person _) isChoice_staffPerson 0
  have keys := nodup_keys_passed distinct hs known
  obtain ⟨m, there, -, -, branches, b, offered, length, at_, bare⟩ :=
    exists_offered distinct (by decide) route isChoice_owner personMapping_entries hs known
      (fun _ _ _ => spared_owner _) lasting_bare fun _ variant => variant.exists_bare keys bare
  refine ⟨rfl, isChoice_owner, ⟨1, by decide, route.follow⟩, m, branches, there, offered, ?_⟩
  -- The one branch is the one that stands for the person.
  rw [personMapping_entries, found_append_cons _ _ _ known] at length
  obtain ⟨only, rfl⟩ := List.length_eq_one_iff.mp length
  cases at_
  simp [bare.not_narrows]

end ToolGateway.Schema.Discriminator
