import ToolGateway.Proofs.Schema.Nesting

/-!
# What a pass stores

A variant that is an `allOf` is also stored under the name of its target. Requests for that are
gathered during the walk of a pass, each made from the description before the pass, and are carried
out one after another when the walk is over. So a component ends with the `allOf` that was asked for
last under its name (`exists_component_pass`), and it is the branch of one mapping entry only: it
equals the branch of an entry exactly when that entry asked for the same (`stored_allOf`).
-/

namespace ToolGateway.Schema.Discriminator

variable {schemas node : Json.Members} {property value : String} {mapping : Json.Members}

/-! ### Requests -/

theorem mem_variants_iff {n : Narrowing} : n ∈ (variants schemas property mapping).2 ↔
    ∃ e ∈ mapping.entries, ∃ b, variant? schemas property e.1 e.2 = some (b, some n) := by
  constructor
  · intro h
    obtain ⟨⟨b, asked⟩, made, rfl⟩ := List.mem_filterMap.mp h
    obtain ⟨e, mem, made⟩ := List.mem_filterMap.mp made
    exact ⟨e, mem, b, made⟩
  · rintro ⟨e, mem, b, made⟩
    exact List.mem_filterMap.mpr ⟨_, List.mem_filterMap.mpr ⟨e, mem, made⟩, rfl⟩

theorem target?_eq_some_iff {target : Json} {schema : Json.Members} :
    target? schemas target = some schema ↔ ∃ reference, target = .str reference ∧
      schemas.get? (Document.simpleName reference) = some (.obj schema) := by
  constructor
  · intro h
    obtain ⟨reference, hr, known⟩ := Option.bind_eq_some_iff.mp h
    exact ⟨reference, Json.str?_eq_some_iff.mp hr, Json.bind_obj?_eq_some_iff.mp known⟩
  · rintro ⟨reference, rfl, known⟩
    simp [target?, Json.str?, known, Json.obj?]

/-- Every variant of a mapping is made for an entry whose target is found. -/
theorem exists_isVariant_of_mem {b : Json} (h : b ∈ (variants schemas property mapping).1) :
    ∃ value name schema, schemas.get? name = some (.obj schema) ∧
      IsVariant schemas property (value, schema) b := by
  obtain ⟨i, at_⟩ := List.mem_iff_getElem?.mp h
  have each := (forall₂_variants schemas property mapping.entries).flip
  obtain ⟨⟨value, schema⟩, entry, variant⟩ := exists_getElem?_of_forall₂ each at_
  obtain ⟨e, -, entry⟩ := List.mem_filterMap.mp (List.mem_of_getElem? entry)
  obtain ⟨schema, target, rfl, rfl⟩ := Option.map_eq_some_iff.mp entry
  obtain ⟨reference, -, known⟩ := target?_eq_some_iff.mp target
  exact ⟨e.1, _, schema, known, variant⟩

/-- What a mapping entry asks for is the narrowed `allOf` of the component that it names, and it
asks for nothing when that declares the property itself. -/
theorem variant?_asks {target b : Json} {n : Narrowing}
    (h : variant? schemas property value target = some (b, some n)) :
    ∃ reference schema parts, target = .str reference ∧ n.1 = Document.simpleName reference ∧
      schemas.get? n.1 = some (.obj schema) ∧ declares schema property = false ∧
      (schema.get? "allOf").bind Json.arr? = some parts ∧
      narrowBranches? schemas property value parts = some n.2 := by
  obtain ⟨reference, hr, h⟩ := Option.bind_eq_some_iff.mp h
  obtain ⟨schema, known, h⟩ := Option.bind_eq_some_iff.mp h
  split at h
  · cases h
  · next undeclared =>
    split at h
    · next branches hb =>
      cases h
      obtain ⟨parts, whole, inner⟩ := Option.bind_eq_some_iff.mp hb
      exact ⟨reference, schema, parts, Json.str?_eq_some_iff.mp hr, rfl,
        Json.bind_obj?_eq_some_iff.mp known, by simpa using undeclared, whole, inner⟩
    · cases h

theorem flatten_of_isChoice_snd (h : IsChoice node property mapping) :
    (flatten schemas node).2 = (variants schemas property mapping).2 := by
  obtain ⟨v, there, name, mapped⟩ := h.discriminator
  simp only [flatten, there, name, mapped]

theorem exists_isChoice_of_mem_flatten (own : node.contains "$ref" = false) {n : Narrowing}
    (h : n ∈ (flatten schemas node).2) :
    ∃ property mapping, IsChoice node property mapping ∧
      n ∈ (variants schemas property mapping).2 := by
  by_cases choice : ∃ property mapping, IsChoice node property mapping
  · obtain ⟨property, mapping, choice⟩ := choice
    rw [flatten_of_isChoice_snd choice] at h
    exact ⟨property, mapping, choice, h⟩
  · -- Nothing is asked for where the discriminator is only removed.
    unfold flatten at h
    split at h
    · cases h
    · next v there =>
      dsimp only at h
      split at h
      · next property mapping name mapped =>
        exact absurd ⟨property, mapping, own, v, there, name, mapped⟩ choice
      · cases h

/-- A visitor that flattens gathers what flattening asks for. -/
theorem narrowings_flattenVisitor (schemas node : Json.Members) (s : Progress) :
    (flattenVisitor schemas node s).2.narrowings = s.narrowings ++ (flatten schemas node).2 := by
  unfold flattenVisitor
  split
  · rfl
  · next has =>
    have none : node.get? "discriminator" = none := by
      rwa [Bool.not_eq_true, Dict.contains_eq_false_iff] at has
    simp only [flatten, none, List.append_nil]

section

variable {d : Document} {steps : List String} {n : Narrowing}

/-- A mapping entry of a schema that is visited asks a pass to store branches under a name. -/
def Asked (d : Document) (n : Narrowing) : Prop :=
  ∃ node property mapping, Visits (.part .document) d.root node ∧
    IsChoice node property mapping ∧ ∃ e ∈ mapping.entries, ∃ b,
      variant? (d.schemas.getD .empty) property e.1 e.2 = some (b, some n)

/-- Branches are asked for under the name of a component. -/
theorem Asked.exists_component (h : Asked d n) : ∃ schemas schema, d.schemas = some schemas ∧
    schemas.get? n.1 = some (.obj schema) := by
  obtain ⟨_, _, _, -, -, _, -, _, made⟩ := h
  obtain ⟨_, schema, _, -, -, known, -⟩ := variant?_asks made
  cases hs : d.schemas with
  | none =>
    rw [hs] at known
    cases known
  | some schemas =>
    rw [hs] at known
    exact ⟨schemas, schema, rfl, known⟩

/-- What a pass is to store was asked for by a schema. -/
theorem asked_of_mem_narrowings (h : n ∈ narrowings d) : Asked d n := by
  have run := walks_walkDocument (flattenVisitor (d.schemas.getD .empty)) d.root ⟨[], 0⟩
  obtain none | ⟨m, visit, asked⟩ := run.exists_visits (Q := fun s => n ∈ s.narrowings)
    (p := fun m => n ∈ (flatten (d.schemas.getD .empty) m).2) (fun m s hs => by
      rw [narrowings_flattenVisitor] at hs
      exact List.mem_append.mp hs) h
  · cases none
  · obtain ⟨property, mapping, choice, asked⟩ := exists_isChoice_of_mem_flatten visit.own asked
    exact ⟨m, property, mapping, visit, choice, mem_variants_iff.mp asked⟩

/-- What a schema that the walk comes to asks for is stored. -/
theorem mem_narrowings_of_route
    (route : Route IsOpen (.part .document) d.root steps .schema (.obj node))
    (choice : IsChoice node property mapping)
    (asked : n ∈ (variants (d.schemas.getD .empty) property mapping).2) : n ∈ narrowings d := by
  have run := walks_walkDocument (flattenVisitor (d.schemas.getD .empty)) d.root ⟨[], 0⟩
  obtain ⟨u, s, s', here, later, -⟩ := run.along (leaves_flattenVisitor _) route
  refine later.keeps (Q := fun s => n ∈ s.narrowings) (fun m s hs => ?_) ?_
  · rw [narrowings_flattenVisitor]
    exact List.mem_append_left _ hs
  · cases here with
    | idle none => exact absurd (.here choice.own) (none node)
    | descend _ met _ =>
      rw [flattenVisitor, if_pos choice.has] at met
      cases met
    | skip _ met =>
      have last := narrowings_flattenVisitor (d.schemas.getD .empty) node s
      rw [met] at last
      rw [show s'.narrowings = _ from last, flatten_of_isChoice_snd choice]
      exact List.mem_append_right _ asked

end

/-! ### Components -/

section

variable {d : Document} {name : String}

theorem schemas_store (ns : List Narrowing) (d : Document) :
    (store ns d).schemas = d.schemas.map (ns.foldl applyNarrowing) := by
  unfold store
  cases hs : d.schemas with
  | none => exact hs
  | some schemas => exact Document.schemas_withSchemas hs _

/-- After a pass a component is what the walk made of it, with the `allOf` that was asked for last
under its name. -/
theorem exists_component_pass {v : Json} (hs : d.schemas = some schemas)
    (known : schemas.get? name = some v) :
    ∃ schemas' u s s', (pass d).1.schemas = some schemas' ∧
      Walks (flattenVisitor schemas) (.value .schema v) s u s' ∧
      schemas'.get? name = some (withAllOf (latest? (narrowings d) name) u) := by
  obtain ⟨u, s, s', run, there⟩ :=
    exists_route_rewritten (route_component_iff.mpr ⟨schemas, hs, known⟩)
  obtain ⟨walked, hw, found⟩ := route_component_iff.mp there
  rw [hs, Option.getD_some] at run
  refine ⟨(narrowings d).foldl applyNarrowing walked, u, s, s', ?_, run, ?_⟩
  · rw [pass_eq, schemas_store, hw, Option.map_some]
  · rw [get?_foldl_applyNarrowing, found, Option.map_some]

end

/-! ### Variants that are stored -/

/-- The variant that is made of a target with the branches of its `allOf` narrowed. -/
def recomposed (target : Json.Members) (results : List Json) : Json.Members :=
  (target.swapErase "discriminator").insert "allOf" (.arr results)

theorem get?_recomposed_allOf (target : Json.Members) (results : List Json) :
    (recomposed target results).get? "allOf" = some (.arr results) := by
  rw [recomposed, Dict.get?_insert, if_pos rfl]

/-- A schema without a discriminator, nor one below it outside its `allOf`. -/
def Flat (node : Json.Members) : Prop :=
  IsOpen node ∧ ∀ k role v, (k, role) ∈ places → k ≠ "allOf" → node.get? k = some v →
    Throughout IsOpen role v

/-- A pass rewrites nothing of a flat schema but its `allOf`. -/
theorem Flat.alike {m : Json.Members} {s s' : Progress} (h : Flat node)
    (run : Walks (flattenVisitor schemas) (.value .schema (.obj node)) s (.obj m) s') :
    Alike node m := by
  obtain ⟨_, same, -, rfl | run⟩ := Rests.walked (Or.inr h.1) (leaves_flattenVisitor schemas) run
  · cases same
    exact .refl _
  · cases same
    intro key ne
    exact run.get?_of_throughout (leaves_flattenVisitor schemas) nodup_places
      fun role v place there => h.2 key role v place ne there

section

variable {target : Json.Members} {reference : String} {parts results : List Json}

theorem variant?_of_narrowBranches?
    (known : schemas.get? (Document.simpleName reference) = some (.obj target))
    (undeclared : declares target property = false)
    (whole : (target.get? "allOf").bind Json.arr? = some parts)
    (inner : narrowBranches? schemas property value parts = some results) :
    variant? schemas property value (.str reference) =
      some (.obj (recomposed target results), some (Document.simpleName reference, results)) := by
  simp [variant?, Json.str?, known, Json.obj?, undeclared, whole, inner, recomposed]

theorem IsVariant.eq_recomposed {b : Json} (h : IsVariant schemas property (value, target) b)
    (undeclared : declares target property = false)
    (whole : (target.get? "allOf").bind Json.arr? = some parts)
    (inner : narrowBranches? schemas property value parts = some results) :
    b = .obj (recomposed target results) := by
  cases h with
  | direct declared =>
    rw [declared] at undeclared
    cases undeclared
  | composed _ whole' inner' =>
    cases whole'.symm.trans whole
    cases inner'.symm.trans inner
    rfl
  | plain _ nowhere =>
    rw [whole, Option.bind_some, inner] at nowhere
    cases nowhere

end

section

variable {d : Document} {steps : List String} {before after : List (String × Json)}
  {reference : String} {target : Json.Members} {parts results : List Json}

/-- The branch for an entry whose target is an `allOf` that is narrowed, and what is stored for
it. -/
theorem exists_stored (distinct : d.root.Distinct)
    (route : Route IsOpen (.part .document) d.root steps .schema (.obj node))
    (choice : IsChoice node property mapping)
    (entry : mapping.entries = before ++ (value, .str reference) :: after)
    (hs : d.schemas = some schemas)
    (known : schemas.get? (Document.simpleName reference) = some (.obj target))
    (undeclared : declares target property = false)
    (whole : (target.get? "allOf").bind Json.arr? = some parts)
    (inner : narrowBranches? schemas property value parts = some results) :
    ∃ branches schemas' walked last s s',
      branches[(existing node).length + (found schemas before).length]? =
        some (.obj (recomposed target results)) ∧
      (∃ m, Pointer.follow (rewritten d).root steps = some (.obj m) ∧ IsOneOf m branches) ∧
      (Spared (narrowings d) steps →
        ∃ m, Pointer.follow (pass d).1.root steps = some (.obj m) ∧ IsOneOf m branches) ∧
      (pass d).1.schemas = some schemas' ∧
      Walks (flattenVisitor schemas) (.value .schema (.obj target)) s (.obj walked) s' ∧
      latest? (narrowings d) (Document.simpleName reference) = some last ∧
      schemas'.get? (Document.simpleName reference) =
        some (.obj (walked.insert "allOf" (.arr last))) := by
  have keys := route.nodup_keys distinct
  obtain ⟨entries⟩ := mapping
  obtain rfl : entries = _ := entry
  -- The branch is where the entries found before put it.
  obtain ⟨b, at_, variant⟩ := exists_variant property value before after known
  obtain rfl := variant.eq_recomposed undeclared whole inner
  obtain ⟨u, s, s', run, there⟩ := exists_route_rewritten route
  obtain rfl := eq_flatten_of_walks run choice.own choice.has
  -- Something is asked for under the name, so something is the last.
  have asked : (Document.simpleName reference, results) ∈ narrowings d := by
    have made := variant?_of_narrowBranches? known undeclared whole inner
    apply mem_narrowings_of_route route choice
    rw [hs, Option.getD_some]
    exact mem_variants_iff.mpr ⟨_, List.mem_append_right _ List.mem_cons_self, _, made⟩
  obtain ⟨schemas', w, t, t', hs', walk, stored⟩ := exists_component_pass hs known
  obtain ⟨walked, rfl⟩ := walk.exists_members
  obtain ⟨last, latest⟩ := exists_latest? asked
  rw [latest] at stored
  refine ⟨_, schemas', walked, last, t, t', ?_, ⟨_, there.follow, isOneOf_flatten keys choice⟩,
    fun spared => ?_, hs', walk, latest, stored⟩
  · rw [hs, Option.getD_some, List.getElem?_append_right (Nat.le_add_right _ _),
      Nat.add_sub_cancel_left]
    exact at_
  · obtain ⟨m, there, flat⟩ := exists_isOneOf_pass distinct route choice spared
    exact ⟨m, there.follow, flat⟩

end

/-- The branch for a mapping entry whose target is an `allOf` that is narrowed stands behind those
of the entries before it. Under the name of the target a pass stores the `allOf` that was asked for
last, be it for this entry or for another one, of the same discriminator or not. So where nothing
else in the target is rewritten, what is stored equals the branch exactly when these two are the
same, which they are when no other entry asks for anything else under the name. -/
theorem stored_allOf {d : Document} (distinct : d.root.Distinct) {steps : List String}
    {node : Json.Members} {property : String} {mapping : Json.Members}
    (route : Route IsOpen (.part .document) d.root steps .schema (.obj node))
    (choice : IsChoice node property mapping) {before after : List (String × Json)}
    {value reference : String}
    (entry : mapping.entries = before ++ (value, .str reference) :: after)
    {schemas target : Json.Members} (hs : d.schemas = some schemas)
    (known : schemas.get? (Document.simpleName reference) = some (.obj target))
    (undeclared : declares target property = false) {parts results : List Json}
    (whole : (target.get? "allOf").bind Json.arr? = some parts)
    (inner : narrowBranches? schemas property value parts = some results) :
    ∃ branches schemas' stored last,
      branches[(existing node).length + (found schemas before).length]? =
        some (.obj (recomposed target results)) ∧
      (∃ m, Pointer.follow (rewritten d).root steps = some (.obj m) ∧ IsOneOf m branches) ∧
      (Spared (narrowings d) steps →
        ∃ m, Pointer.follow (pass d).1.root steps = some (.obj m) ∧ IsOneOf m branches) ∧
      (pass d).1.schemas = some schemas' ∧
      schemas'.get? (Document.simpleName reference) = some (.obj stored) ∧
      stored.get? "allOf" = some (.arr last) ∧
      latest? (narrowings d) (Document.simpleName reference) = some last ∧
      (Flat target →
        ((∀ key, stored.get? key = (recomposed target results).get? key) ↔ last = results)) ∧
      ((∀ other, Asked d (Document.simpleName reference, other) → other = results) →
        last = results) := by
  obtain ⟨branches, schemas', walked, last, s, s', at_, walks, passes, hs', walk, latest, stored⟩ :=
    exists_stored distinct route choice entry hs known undeclared whole inner
  have put : (walked.insert "allOf" (.arr last)).get? "allOf" = some (.arr last) := by
    rw [Dict.get?_insert, if_pos rfl]
  refine ⟨branches, schemas', _, last, at_, walks, passes, hs', stored, put, latest,
    fun flat => ⟨fun same => ?_, ?_⟩,
    fun only => only last (asked_of_mem_narrowings (mem_of_latest? latest))⟩
  · have same := same "allOf"
    rw [put, get?_recomposed_allOf] at same
    cases same
    rfl
  · rintro rfl key
    rw [recomposed, Dict.swapErase_of_contains_eq_false flat.1, Dict.get?_insert, Dict.get?_insert]
    by_cases here : "allOf" = key
    · rw [if_pos here, if_pos here]
    · rw [if_neg here, if_neg here, flat.alike walk key (Ne.symm here)]

namespace Sample

/-- A dog is an object with a kind. -/
def dog : Json.Members := ⟨[("allOf", .arr [kinded])]⟩

/-- What a dog is narrowed to. -/
def dogResults : List Json :=
  [.object [("properties", .object [("kind", constant "dog")])]]

/-- An object with the property `color`. -/
def colored : Json :=
  .object [("properties", .object [("color", .object [("type", .str "string")])])]

/-- A cat is an object with a kind and a color. -/
def cat : Json.Members := ⟨[("allOf", .arr [kinded, colored])]⟩

/-- A cat that is a pet. -/
def petResults : List Json :=
  [.object [("properties", .object [("kind", constant "cat")])], colored]

/-- A cat that is a toy. -/
def toyResults : List Json :=
  [kinded, .object [("properties", .object [("color", constant "red")])]]

def shopSchemas : Json.Members :=
  ⟨[("Pet", .obj (choosing "kind" "cat" "Cat")), ("Toy", .obj (choosing "color" "red" "Cat")),
    ("Cat", .obj cat)]⟩

/-- A description of a shop where a cat is a pet by its kind and a toy by its color. -/
def shop : Document where
  root := .object [("components", .object [("schemas", .obj shopSchemas)])]

theorem distinct_shop : shop.root.Distinct := by
  simp [shop, shopSchemas, cat, choosing, kinded, colored, Json.object, Json.distinct_obj_iff,
    Json.distinct_arr_iff]

theorem known_cat : shopSchemas.get? (Document.simpleName ("#/components/schemas/" ++ "Cat")) =
    some (.obj cat) := by
  rw [show Document.simpleName ("#/components/schemas/" ++ "Cat") = "Cat" by decide +kernel]
  rfl

end Sample

open Sample in
/-- The statement at a dog, which is a pet only. -/
theorem stored_allOf_dog :
    (pets []).root.Distinct ∧ declares dog "kind" = false ∧
      narrowBranches? (petSchemas []) "kind" "dog" [kinded] = some dogResults ∧
      ∃ branches schemas' stored last,
        branches[1]? = some (.obj (recomposed dog dogResults)) ∧
        (∃ m, Pointer.follow (rewritten (pets [])).root ["components", "schemas", "Pet"] =
          some (.obj m) ∧ IsOneOf m branches) ∧
        (Spared (narrowings (pets [])) ["components", "schemas", "Pet"] →
          ∃ m, Pointer.follow (pass (pets [])).1.root ["components", "schemas", "Pet"] =
            some (.obj m) ∧ IsOneOf m branches) ∧
        (pass (pets [])).1.schemas = some schemas' ∧ schemas'.get? "Dog" = some (.obj stored) ∧
        stored.get? "allOf" = some (.arr last) ∧
        latest? (narrowings (pets [])) "Dog" = some last ∧
        (Flat dog →
          ((∀ key, stored.get? key = (recomposed dog dogResults).get? key) ↔ last = dogResults)) ∧
        ((∀ other, Asked (pets []) ("Dog", other) → other = dogResults) → last = dogResults) := by
  have distinct : (pets []).root.Distinct := distinct_pets [] (by simp)
  have name : Document.simpleName "#/components/schemas/Dog" = "Dog" := by decide +kernel
  have known : (petSchemas []).get? (Document.simpleName "#/components/schemas/Dog") =
      some (.obj dog) := by
    rw [name]
    rfl
  have earlier : (found (petSchemas []) [("cat", .str "#/components/schemas/Cat")]).length = 1 := by
    decide +kernel
  have inner : narrowBranches? (petSchemas []) "kind" "dog" [kinded] = some dogResults := rfl
  have entry : petMapping.entries = [("cat", .str "#/components/schemas/Cat")] ++
      ("dog", .str "#/components/schemas/Dog") ::
        [("fish", .str "#/components/schemas/Fish")] := rfl
  have stored :=
    stored_allOf distinct (route_pet []) (isChoice_pet []) entry rfl known rfl rfl inner
  rw [earlier, name] at stored
  exact ⟨distinct, rfl, inner, stored⟩

open Sample in
/-- A cat that is narrowed as a pet and as a toy is stored once. It cannot equal both branches. -/
theorem stored_allOf_overwritten :
    ∃ schemas stored pet toy,
      (pass shop).1.schemas = some schemas ∧ schemas.get? "Cat" = some (.obj stored) ∧
      (∃ m branches, Pointer.follow (pass shop).1.root ["components", "schemas", "Pet"] =
        some (.obj m) ∧ m.get? "oneOf" = some (.arr branches) ∧ branches[0]? = some (.obj pet)) ∧
      (∃ m branches, Pointer.follow (pass shop).1.root ["components", "schemas", "Toy"] =
        some (.obj m) ∧ m.get? "oneOf" = some (.arr branches) ∧ branches[0]? = some (.obj toy)) ∧
      ¬((∀ key, stored.get? key = pet.get? key) ∧ ∀ key, stored.get? key = toy.get? key) := by
  have routePet := route_component_iff.mpr ⟨shopSchemas, show shop.schemas = _ from rfl,
    show shopSchemas.get? "Pet" = _ from rfl⟩
  have routeToy := route_component_iff.mpr ⟨shopSchemas, show shop.schemas = _ from rfl,
    show shopSchemas.get? "Toy" = _ from rfl⟩
  obtain ⟨pets, schemas, walked, last, -, -, atPet, -, passPet, hs, -, -, stored⟩ :=
    exists_stored distinct_shop routePet (isChoice_choosing "kind" "cat" "Cat")
      (List.nil_append _).symm rfl known_cat rfl rfl (show _ = some petResults from rfl)
  obtain ⟨toys, -, -, -, -, -, atToy, -, passToy, -, -, -, -⟩ :=
    exists_stored distinct_shop routeToy (isChoice_choosing "color" "red" "Cat")
      (List.nil_append _).symm rfl known_cat rfl rfl (show _ = some toyResults from rfl)
  obtain ⟨m, therePet, flatPet⟩ := passPet (spared_component _ "Pet")
  obtain ⟨m', thereToy, flatToy⟩ := passToy (spared_component _ "Toy")
  refine ⟨schemas, _, _, _, hs, stored, ⟨m, pets, therePet, flatPet.branches, atPet⟩,
    ⟨m', toys, thereToy, flatToy.branches, atToy⟩, ?_⟩
  rintro ⟨samePet, sameToy⟩
  have same := (samePet "allOf").symm.trans (sameToy "allOf")
  rw [get?_recomposed_allOf, get?_recomposed_allOf] at same
  -- One has the kind of the cat narrowed, the other one its color.
  cases same

end ToolGateway.Schema.Discriminator
