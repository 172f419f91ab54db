import ToolGateway.Proofs.Schema.Portable

/-!
# Schemas without branches

An empty `oneOf` admits no value. A pass makes one where a schema with a discriminator has no branch
before and no target of its mapping is found, and takes the properties of that schema away. Nowhere
else does flattening bring an empty `oneOf` into a description (`branched_flattenAll`): whatever is
copied has as many branches as it had, and a component that is found in the first pass is found in
all of them.
-/

namespace ToolGateway.Schema.Discriminator

variable {schemas node : Json.Members} {property value : String} {mapping : Json.Members}

/-- No schema that a walk visits has an empty `oneOf`. -/
def Branched (root : Json) : Prop := ∀ n ∈ visited root, n.get? "oneOf" ≠ some (.arr [])

/-! ### The number of branches -/

theorem branchCount?_eq_zero_iff :
    branchCount? node = some 0 ↔ node.get? "oneOf" = some (.arr []) := by
  rw [branchCount?, Option.map_eq_some_iff]
  simp [Json.bind_arr?_eq_some_iff]

theorem length_existing (node : Json.Members) :
    (existing node).length = (branchCount? node).getD 0 := by
  unfold existing branchCount?
  cases (node.get? "oneOf").bind Json.arr? <;> rfl

/-- A schema that is rewritten has the branches it had, and one for each entry found. -/
theorem branchCount?_of_isOneOf {branches : List Json} (h : IsOneOf node branches) :
    branchCount? node = some branches.length := by
  rw [branchCount?, h.branches]
  rfl

/-- No branch of a schema is missing: it has no empty `oneOf`, and if it is to be rewritten, it has
branches already or a target is found for it. -/
structure Fruitful (schemas node : Json.Members) : Prop where
  branches : branchCount? node ≠ some 0
  choices : ∀ property mapping, IsChoice node property mapping →
    existing node ≠ [] ∨ found schemas mapping.entries ≠ []

theorem portable_fruitful (schemas : Json.Members) : Portable (Fruitful schemas) where
  copied {n n'} ref discriminator count h := by
    refine ⟨count ▸ h.branches, fun property mapping choice => ?_⟩
    obtain ⟨v, there, names⟩ := choice.discriminator
    have own : n.contains "$ref" = false := by
      rw [Dict.contains, ← ref]
      exact choice.own
    have same : n.get? "discriminator" = some v := by
      rcases discriminator with none | same
      · rw [none] at there
        cases there
      · exact same.symm.trans there
    refine (h.choices property mapping ⟨own, v, same, names⟩).imp_left fun some => ?_
    rw [← List.length_pos_iff, length_existing] at some ⊢
    rw [count]
    exact some
  plain {n} none count := by
    refine ⟨by simp [count], fun property mapping choice => ?_⟩
    obtain ⟨v, there, -⟩ := choice.discriminator
    rw [none] at there
    cases there

/-! ### Targets that are found -/

theorem found_ne_nil_iff {entries : List (String × Json)} :
    found schemas entries ≠ [] ↔ ∃ e ∈ entries, ∃ schema, target? schemas e.2 = some schema := by
  simp [found, Option.eq_none_iff_forall_ne_some]

section

variable {d : Document}

/-- A component that is an object stays one. -/
theorem exists_component_passed {name : String} (hs : d.schemas = some schemas)
    (known : schemas.get? name = some (.obj node)) (k : Nat) :
    ∃ schemas' m, (passed k d).schemas = some schemas' ∧ schemas'.get? name = some (.obj m) := by
  induction k with
  | zero => exact ⟨schemas, node, hs, known⟩
  | succ k ih =>
    obtain ⟨before, m, hs, known⟩ := ih
    obtain ⟨after, u, s, s', hs, run, known⟩ := exists_component_pass hs known
    obtain ⟨m, rfl⟩ := run.exists_members
    rw [passed_succ]
    cases asked : latest? (narrowings (passed k d)) name with
    | none =>
      rw [asked] at known
      exact ⟨after, m, hs, known⟩
    | some branches =>
      rw [asked] at known
      exact ⟨after, _, hs, known⟩

/-- So what is found for a mapping is found in every pass. -/
theorem found_passed_ne_nil {entries : List (String × Json)} (k : Nat)
    (h : found (d.schemas.getD .empty) entries ≠ []) :
    found ((passed k d).schemas.getD .empty) entries ≠ [] := by
  obtain ⟨e, mem, schema, target⟩ := found_ne_nil_iff.mp h
  obtain ⟨reference, text, known⟩ := target?_eq_some_iff.mp target
  cases hs : d.schemas with
  | none =>
    rw [hs] at known
    cases known
  | some schemas =>
    rw [hs] at known
    obtain ⟨after, m, hs, known⟩ := exists_component_passed hs known k
    refine found_ne_nil_iff.mpr ⟨e, mem, m, target?_eq_some_iff.mpr ⟨reference, text, ?_⟩⟩
    rw [hs]
    exact known

/-- Where the schema that is rewritten misses no branch, the result misses none. -/
theorem fruitful_flatten {known : Json.Members} (keys : node.keys.Nodup)
    (choice : IsChoice node property mapping) (h : Fruitful known node)
    (kept : found known mapping.entries ≠ [] → found schemas mapping.entries ≠ []) :
    Fruitful known (flatten schemas node).1 := by
  have flat : IsOneOf (flatten schemas node).1 _ := isOneOf_flatten keys choice
  refine ⟨?_, fun property mapping other => ?_⟩
  · -- The branches before stay, and each entry that is found adds one.
    have each := (forall₂_variants schemas property mapping.entries).length_eq
    have some := (h.choices property mapping choice).imp_right kept
    rw [branchCount?_of_isOneOf flat, List.length_append, ← each]
    rw [← List.length_pos_iff, ← List.length_pos_iff] at some
    intro none
    injection none
    omega
  · obtain ⟨v, there, -⟩ := other.discriminator
    rw [flat.discriminator] at there
    cases there

end

/-! ### Schemas that were flattened -/

/-- An open schema without properties that has `count` branches. -/
structure Listed (count : Nat) (node : Json.Members) : Prop where
  own : node.contains "$ref" = false
  through : IsOpen node
  properties : node.get? "properties" = none
  branches : branchCount? node = some count

theorem lasting_listed (count : Nat) : Lasting (Listed count) where
  walked leaves h run := by
    obtain ⟨m, rfl, own, through, run⟩ := run.of_open leaves h.own h.through
    obtain ⟨_, same, properties, branches⟩ := run.exists_obj_of_ready
      (p := fun n => n.get? "properties" = none ∧ branchCount? n = some count)
      ⟨nodup_places, fun _ _ => rfl⟩ (fun n k v w _ there length hn =>
        ⟨Dict.get?_replace_of_get?_eq_none hn.1, (branchCount?_replace there length).trans hn.2⟩)
      ⟨h.properties, h.branches⟩
    cases same
    exact ⟨m, rfl, own, through, properties, branches⟩
  stored alike h := by
    refine ⟨(alike.contains (by decide)).trans h.own, (alike.contains (by decide)).trans h.through,
      (alike _ (by decide)).trans h.properties, ?_⟩
    rw [branchCount?, alike _ (by decide)]
    exact h.branches

section

variable {d : Document} {k : Nat} {steps : List String}

/-- Where a pass rewrites a schema, the number of its branches in the end is that of the branches it
had and the entries found. -/
theorem exists_listed (distinct : d.root.Distinct) (early : k < maxPasses)
    (route : Route IsOpen (.part .document) (passed k d).root steps .schema (.obj node))
    (choice : IsChoice node property mapping)
    (spared : ∀ j, k ≤ j → j < maxPasses → Spared (narrowings (passed j d)) steps) :
    ∃ m, Route IsOpen (.part .document) (flattenAll d).root steps .schema (.obj m) ∧
      Listed ((existing node).length +
        (found ((passed k d).schemas.getD .empty) mapping.entries).length) m := by
  obtain ⟨m, there, flat⟩ := exists_isOneOf_pass (distinct_passed distinct k) route choice
    (spared k (Nat.le_refl k) early)
  rw [← passed_succ] at there
  refine (lasting_listed _).flattenAll early there ?_ fun j hj => spared j (Nat.le_of_lt hj)
  refine ⟨flat.own, Dict.contains_eq_false_iff.mpr flat.discriminator, flat.properties, ?_⟩
  rw [branchCount?_of_isOneOf flat, List.length_append,
    (forall₂_variants _ property mapping.entries).length_eq]

end

theorem branched_iff {root : Json} :
    Branched root ↔ Throughout (fun n => branchCount? n ≠ some 0) (.part .document) root := by
  simp only [Branched, Throughout, mem_visited_iff, Ne, branchCount?_eq_zero_iff]

theorem branched_of_within {root : Json}
    (h : ∀ n, (Json.obj n).Within root → n.get? "oneOf" = none) : Branched root := by
  intro n hn
  rw [h n (mem_visited_iff.mp hn).within]
  exact nofun

/-- Flattening brings no empty `oneOf` into a description where every schema that it rewrites has
branches before or a target that is found. Where one has neither, it ends with an empty `oneOf` and
without its properties, unless that is below the `allOf` of a component whose narrowing is
stored. -/
theorem branched_flattenAll {d : Document} (distinct : d.root.Distinct)
    (branched : Branched d.root) :
    ((∀ n ∈ visited d.root, ∀ property mapping, IsChoice n property mapping →
        existing n ≠ [] ∨ found (d.schemas.getD .empty) mapping.entries ≠ []) →
      Branched (flattenAll d).root) ∧
    ∀ k < maxPasses, ∀ (steps : List String) (node : Json.Members) (property : String)
      (mapping : Json.Members),
      Route IsOpen (.part .document) (passed k d).root steps .schema (.obj node) →
      IsChoice node property mapping →
      (∀ j, k ≤ j → j < maxPasses → Spared (narrowings (passed j d)) steps) →
      ∃ m ∈ visited (flattenAll d).root, Pointer.follow (flattenAll d).root steps = some (.obj m) ∧
        m.get? "properties" = none ∧
        (m.get? "oneOf" = some (.arr []) ↔ existing node = [] ∧
          found ((passed k d).schemas.getD .empty) mapping.entries = []) := by
  constructor
  · intro choices
    have before : Throughout (Fruitful (d.schemas.getD .empty)) (.part .document) d.root :=
      fun n hn => ⟨branched_iff.mp branched n hn,
        fun property mapping => choices n (mem_visited_iff.mpr hn) property mapping⟩
    have after := throughout_passed (portable_fruitful _) distinct before
      (fun k node property mapping visit fruitful choice =>
        fruitful_flatten ((distinct_passed distinct k).of_within visit.within).keys choice fruitful
          (found_passed_ne_nil k)) maxPasses
    have last := throughout_dropped (portable_fruitful _) (distinct_passed distinct maxPasses) after
    rw [flattenAll, passes_eq, branched_iff]
    exact fun n hn => (last n hn).branches
  · intro k early steps node property mapping route choice spared
    obtain ⟨m, there, listed⟩ := exists_listed distinct early route choice spared
    refine ⟨m, mem_visited_iff.mpr (there.visits (.here listed.own)), there.follow,
      listed.properties, ?_⟩
    rw [← branchCount?_eq_zero_iff, listed.branches]
    simp [Nat.add_eq_zero_iff, List.length_eq_zero_iff]

namespace Sample

/-- A shape with a kind, all of whose kinds lead to no known schema. -/
def shape : Json.Members := person (choosing "kind" "ghost" "Ghost")

/-- The mapping of the shape. -/
def shapeMapping : Json.Members := ⟨[("ghost", .str ("#/components/schemas/" ++ "Ghost"))]⟩

def shapeSchemas : Json.Members := ⟨[("Shape", .obj shape)]⟩

/-- A description of shapes. -/
def shapes : Document where
  root := .object [("components", .object [("schemas", .obj shapeSchemas)])]

theorem distinct_shapes : shapes.root.Distinct := by
  simp [shapes, shapeSchemas, shape, person, choosing, Json.object, Json.distinct_obj_iff]

theorem branched_shapes : Branched shapes.root := by
  apply branched_of_within
  simp [shapes, shapeSchemas, shape, person, choosing, Json.object, Json.within_obj_iff,
    Json.within_str_iff, Dict.get?, Dict.lookup, or_imp, forall_and]

theorem route_shape : Route IsOpen (.part .document) (passed 0 shapes).root
    ["components", "schemas", "Shape"] .schema (.obj shape) :=
  route_component_iff.mpr ⟨shapeSchemas, rfl, rfl⟩

theorem isChoice_shape : IsChoice shape "kind" shapeMapping := ⟨rfl, _, rfl, rfl, rfl⟩

theorem found_shape : found shapeSchemas shapeMapping.entries = [] := by decide +kernel

theorem branched_shop : Branched shop.root := by
  apply branched_of_within
  simp [shop, shopSchemas, cat, kinded, colored, choosing, Json.object, Json.within_obj_iff,
    Json.within_arr_iff, Json.within_str_iff, Dict.get?, Dict.lookup, or_imp, forall_and]

theorem found_shop {n mapping : Json.Members} {property : String} (hn : n ∈ visited shop.root)
    (choice : IsChoice n property mapping) : found shopSchemas mapping.entries ≠ [] := by
  have each : ∀ n, (Json.obj n).Within shop.root → ∀ v, n.get? "discriminator" = some v →
      ∀ mapping, v.getObj? "mapping" = some mapping →
        ∃ value, mapping = ⟨[(value, .str ("#/components/schemas/" ++ "Cat"))]⟩ := by
    simp [shop, shopSchemas, cat, kinded, colored, choosing, Json.object, Json.within_obj_iff,
      Json.within_arr_iff, Json.within_str_iff, Dict.get?, Dict.lookup, or_imp, forall_and,
      Json.getObj?, Json.get?, Json.obj?]
  obtain ⟨v, there, -, mapped⟩ := choice.discriminator
  obtain ⟨value, rfl⟩ := each n (mem_visited_iff.mp hn).within v there mapping mapped
  exact found_ne_nil_iff.mpr
    ⟨_, List.mem_cons_self, cat, target?_eq_some_iff.mpr ⟨_, rfl, known_cat⟩⟩

end Sample

open Sample in
/-- The statement at the shop, where both discriminators find their target. -/
theorem branched_flattenAll_shop :
    shop.root.Distinct ∧ Branched shop.root ∧
      (∀ n ∈ visited shop.root, ∀ property mapping, IsChoice n property mapping →
        existing n ≠ [] ∨ found shopSchemas mapping.entries ≠ []) ∧
      Branched (flattenAll shop).root := by
  have choices : ∀ n ∈ visited shop.root, ∀ property mapping, IsChoice n property mapping →
      existing n ≠ [] ∨ found shopSchemas mapping.entries ≠ [] :=
    fun n hn _ _ choice => Or.inr (found_shop hn choice)
  exact ⟨distinct_shop, branched_shop, choices,
    (branched_flattenAll distinct_shop branched_shop).1 choices⟩

open Sample in
/-- No schema of the shapes has an empty `oneOf` before. Afterwards the shape has one, and its
properties are gone. -/
theorem flattenAll_empties_shape :
    Branched shapes.root ∧ (∃ props, shape.get? "properties" = some props) ∧
      Pointer.follow shapes.root ["components", "schemas", "Shape"] = some (.obj shape) ∧
      ∃ m ∈ visited (flattenAll shapes).root,
        Pointer.follow (flattenAll shapes).root ["components", "schemas", "Shape"] =
          some (.obj m) ∧
        m.get? "oneOf" = some (.arr []) ∧ m.get? "properties" = none := by
  obtain ⟨m, there, listed⟩ := exists_listed distinct_shapes (by decide) route_shape isChoice_shape
    fun _ _ _ => spared_component _ "Shape"
  refine ⟨branched_shapes, ⟨_, rfl⟩, route_shape.follow, m,
    mem_visited_iff.mpr (there.visits (.here listed.own)), there.follow, ?_, listed.properties⟩
  rw [← branchCount?_eq_zero_iff, listed.branches]
  show some (0 + (found shapeSchemas shapeMapping.entries).length) = _
  rw [found_shape]
  rfl

end ToolGateway.Schema.Discriminator
