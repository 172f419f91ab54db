import ToolGateway.Proofs.Schema.Storage

/-!
# What copying keeps

A pass makes up the schemas that it puts in from schemas of the description: it copies them, takes
their discriminator away, puts another `allOf` in, and lets a property admit one value only. So a
property that such changes keep (`Portable`) holds after the pass wherever a walk goes, when it held
everywhere before and holds of what the pass rewrites (`throughout_pass`).
-/

namespace ToolGateway.Schema.Discriminator

variable {p : Json.Members → Prop} {schemas node : Json.Members} {property value : String}
  {mapping : Json.Members}

/-- How many branches a schema lists under `oneOf`. -/
def branchCount? (node : Json.Members) : Option Nat :=
  ((node.get? "oneOf").bind Json.arr?).map List.length

/-- A property of schemas that depends on their discriminator and the number of their branches only,
and that a schema has which has neither. -/
structure Portable (p : Json.Members → Prop) : Prop where
  copied : ∀ {n n' : Json.Members}, n'.get? "$ref" = n.get? "$ref" →
    (n'.get? "discriminator" = none ∨ n'.get? "discriminator" = n.get? "discriminator") →
      branchCount? n' = branchCount? n → p n → p n'
  plain : ∀ {n : Json.Members}, n.get? "discriminator" = none → branchCount? n = none → p n

/-- A walk keeps the number of branches. -/
theorem branchCount?_replace {n : Json.Members} {k : String} {v w : Json}
    (there : n.get? k = some v)
    (length : w.arr?.map List.length = v.arr?.map List.length) :
    branchCount? (n.replace k w) = branchCount? n := by
  by_cases hk : k = "oneOf"
  · subst hk
    rw [branchCount?, branchCount?, there, Dict.get?_replace_self (Dict.contains_of_get? there)]
    exact length
  · rw [branchCount?, branchCount?, Dict.get?_replace_of_ne hk]

/-- What a walk makes of the values at the places of a schema does not matter. -/
theorem Portable.replace (h : Portable p) {n : Json.Members} {k : String} {v w : Json}
    (place : k ∈ places.map (·.1)) (there : n.get? k = some v)
    (length : w.arr?.map List.length = v.arr?.map List.length) (hn : p n) : p (n.replace k w) := by
  obtain ⟨ref, discriminator, -⟩ := ne_of_mem_places k place
  exact h.copied (Dict.get?_replace_of_ne ref) (Or.inr (Dict.get?_replace_of_ne discriminator))
    (branchCount?_replace there length) hn

theorem Portable.swapErase (h : Portable p) {n : Json.Members} (keys : n.keys.Nodup) (hn : p n) :
    p (n.swapErase "discriminator") := by
  refine h.copied (Dict.get?_swapErase_of_ne keys (by decide))
    (Or.inl (Dict.get?_swapErase_self keys)) ?_ hn
  rw [branchCount?, Dict.get?_swapErase_of_ne keys (by decide), branchCount?]

/-! ### Copies -/

theorem throughout_swapErase (portable : Portable p) (keys : node.keys.Nodup)
    (h : Throughout p .schema (.obj node)) :
    Throughout p .schema (.obj (node.swapErase "discriminator")) := by
  have same : ∀ key ∈ "$ref" :: places.map (·.1),
      (node.swapErase "discriminator").get? key = node.get? key :=
    fun key => get?_swapErase_of_mem_places keys
  refine h.rewrite (same _ List.mem_cons_self) (portable.swapErase keys)
    fun _ k role v place there => Or.inl ?_
  rw [← same k (List.mem_cons_of_mem _ (List.mem_map_of_mem place)), there]

/-- What is put under `properties` or `allOf` matters only as far as a walk goes into it. -/
theorem throughout_insert (portable : Portable p) {node' : Json.Members} {k : String} {v : Json}
    (other : k ≠ "$ref" ∧ k ≠ "discriminator" ∧ k ≠ "oneOf")
    (put : ∀ key, node'.get? key = if k = key then some v else node.get? key)
    (h : Throughout p .schema (.obj node))
    (inner : node.contains "$ref" = false → ∀ role, (k, role) ∈ places → Throughout p role v) :
    Throughout p .schema (.obj node') := by
  have others : ∀ key, k ≠ key → node'.get? key = node.get? key :=
    fun key ne => by rw [put, if_neg ne]
  refine h.rewrite (others _ other.1) (portable.copied (others _ other.1)
    (Or.inr (others _ other.2.1)) ?_) fun own key role w place there => ?_
  · rw [branchCount?, branchCount?, others _ other.2.2]
  · by_cases same : k = key
    · subst same
      rw [put, if_pos rfl] at there
      cases there
      exact Or.inr (inner own role place)
    · rw [others key same] at there
      exact Or.inl there

theorem throughout_constant (portable : Portable p) (value : String) :
    Throughout p .schema (constant value) := by
  intro n hn
  cases eq_of_visits_constant hn
  exact portable.plain rfl rfl

theorem allOf_mem_places : ("allOf", Role.list .schema) ∈ places := by
  simp [places, listKeywords]

theorem role_of_properties {role : Role} (h : ("properties", role) ∈ places) :
    role = .map .schema := by
  simpa [places, singleKeywords, mapKeywords, listKeywords] using h

theorem role_of_allOf {role : Role} (h : ("allOf", role) ∈ places) : role = .list .schema := by
  simpa [places, singleKeywords, mapKeywords, listKeywords] using h

theorem role_of_oneOf {role : Role} (h : ("oneOf", role) ∈ places) : role = .list .schema := by
  simpa [places, singleKeywords, mapKeywords, listKeywords] using h

theorem throughout_narrowed (portable : Portable p) (keys : node.keys.Nodup)
    (h : Throughout p .schema (.obj node)) :
    Throughout p .schema (.obj (narrowed node property value)) := by
  have erased := throughout_swapErase portable keys h
  unfold narrowed
  dsimp only
  split
  · next props there =>
    refine throughout_insert portable (k := "properties")
      (v := .obj (props.insert property (constant value))) (by decide) (fun key => ?_) erased
      fun own role place => ?_
    · by_cases same : "properties" = key
      · subst same
        rw [if_pos rfl]
        exact Dict.get?_replace_self (Dict.contains_of_get? there)
      · rw [if_neg same, Dict.get?_replace_of_ne same]
    · obtain rfl := role_of_properties place
      have each : Throughout p (.map .schema) (.obj props) :=
        ((throughout_schema_iff own).mp erased).2 _ _ _ place there
      refine throughout_map_iff.mpr fun e he => ?_
      rcases Dict.mem_put he with rfl | he
      · exact throughout_constant portable value
      · exact throughout_map_iff.mp each e he
  · exact erased

/-- Another `allOf` is put into a schema. -/
theorem throughout_insert_allOf (portable : Portable p) {results : List Json}
    (h : Throughout p .schema (.obj node))
    (inner : node.contains "$ref" = false → Throughout p (.list .schema) (.arr results)) :
    Throughout p .schema (.obj (node.insert "allOf" (.arr results))) := by
  refine throughout_insert portable (k := "allOf") (by decide) (fun _ => Dict.get?_insert) h
    fun own role place => ?_
  obtain rfl := role_of_allOf place
  exact inner own

section

variable (portable : Portable p) (distinct : (Json.obj schemas).Distinct)
  (known : Throughout p (.map .schema) (.obj schemas))

include known in
theorem throughout_declaring? {branch : Json} {schema : Json.Members}
    (hb : Throughout p .schema branch) (h : declaring? schemas property branch = some schema) :
    Throughout p .schema (.obj schema) := by
  obtain ⟨h, -⟩ := Option.filter_eq_some_iff.mp h
  split at h
  · exact known.entry (Json.bind_obj?_eq_some_iff.mp h)
  · rw [← Json.obj?_eq_some_iff.mp h]
    exact hb

include portable distinct known in
theorem throughout_narrowBranches? {parts results : List Json} (keys : (Json.arr parts).Distinct)
    (hb : Throughout p (.list .schema) (.arr parts))
    (h : narrowBranches? schemas property value parts = some results) :
    Throughout p (.list .schema) (.arr results) := by
  induction parts generalizing results with
  | nil => cases h
  | cons branch parts ih =>
    obtain ⟨first, others⟩ := List.forall_mem_cons.mp (throughout_list_iff.mp hb)
    obtain ⟨key, keys⟩ := List.forall_mem_cons.mp (Json.distinct_arr_iff.mp keys)
    rw [narrowBranches?] at h
    split at h
    · next schema hd =>
      cases h
      have nodup := (distinct_declaring? distinct key hd).keys
      refine throughout_list_iff.mpr (List.forall_mem_cons.mpr ⟨?_, others⟩)
      exact throughout_narrowed portable nodup (throughout_declaring? known first hd)
    · obtain ⟨rest, hr, rfl⟩ := Option.map_eq_some_iff.mp h
      have rest := ih (Json.distinct_arr_iff.mpr keys) (throughout_list_iff.mpr others) hr
      exact throughout_list_iff.mpr
        (List.forall_mem_cons.mpr ⟨first, throughout_list_iff.mp rest⟩)

include portable distinct known in
theorem throughout_isVariant {schema : Json.Members} {b : Json}
    (h : IsVariant schemas property (value, schema) b) (keys : (Json.obj schema).Distinct)
    (hs : Throughout p .schema (.obj schema)) : Throughout p .schema b := by
  cases h with
  | direct _ => exact throughout_narrowed portable keys.keys hs
  | plain _ _ => exact hs
  | composed _ whole inner =>
    have erased := throughout_swapErase portable keys.keys hs
    have there := Json.bind_arr?_eq_some_iff.mp whole
    refine throughout_insert_allOf portable erased fun own => ?_
    have own : schema.contains "$ref" = false := by
      rw [Dict.contains, Dict.get?_swapErase_of_ne keys.keys (by decide)] at own
      exact own
    exact throughout_narrowBranches? portable distinct known (keys.get? there)
      (((throughout_schema_iff own).mp hs).2 _ _ _ allOf_mem_places there) inner

include portable distinct known in
theorem throughout_variants {b : Json} (h : b ∈ (variants schemas property mapping).1) :
    Throughout p .schema b := by
  obtain ⟨value, name, schema, there, variant⟩ := exists_isVariant_of_mem h
  exact throughout_isVariant portable distinct known variant (distinct.get? there)
    (known.entry there)

include portable distinct known in
/-- What a schema with a discriminator is made into has a property throughout when the schema has it
throughout, and the result itself has it. -/
theorem throughout_flatten (keys : node.keys.Nodup) (own : node.contains "$ref" = false)
    (has : node.contains "discriminator" = true) (h : Throughout p .schema (.obj node))
    (here : ∀ property mapping, IsChoice node property mapping → p (flatten schemas node).1) :
    Throughout p .schema (.obj (flatten schemas node).1) := by
  by_cases choice : ∃ property mapping, IsChoice node property mapping
  · obtain ⟨property, mapping, choice⟩ := choice
    have found : ∀ key, (flatten schemas node).1.get? key = _ := flatten_of_isChoice keys choice
    refine h.rewrite ?_ (fun _ => here _ _ choice) fun _ k role v place there => ?_
    · rw [found, if_neg (by decide), if_neg (by decide), if_neg (by decide)]
    · rw [found] at there
      split at there
      · cases there
      · split at there
        · next hk =>
          subst hk
          cases there
          obtain rfl := role_of_oneOf place
          refine Or.inr (throughout_list_iff.mpr (List.forall_mem_append.mpr ⟨fun b hb => ?_,
            fun b hb => throughout_variants portable distinct known hb⟩))
          obtain ⟨branches, there, mem⟩ := exists_of_mem_existing hb
          have each := ((throughout_schema_iff own).mp h).2 _ _ _ place there
          exact throughout_list_iff.mp each b mem
        · split at there
          · cases there
          · exact Or.inl there
  · push Not at choice
    rw [flatten_of_not_isChoice own has choice]
    exact throughout_swapErase portable keys h

end

/-! ### Passes -/

section

variable {d : Document} {n : Narrowing}

/-- What is asked for has a property throughout, unless it is asked for a reference. -/
theorem throughout_of_asked (portable : Portable p) (distinct : (Json.obj schemas).Distinct)
    (known : Throughout p (.map .schema) (.obj schemas)) (hs : d.schemas.getD .empty = schemas)
    (asked : Asked d n) {target : Json.Members} (there : schemas.get? n.1 = some (.obj target))
    (own : target.contains "$ref" = false) : Throughout p (.list .schema) (.arr n.2) := by
  obtain ⟨node, property, mapping, -, -, e, -, b, made⟩ := asked
  rw [hs] at made
  obtain ⟨reference, schema, parts, -, -, there', -, whole, inner⟩ := variant?_asks made
  cases there'.symm.trans there
  have found := Json.bind_arr?_eq_some_iff.mp whole
  exact throughout_narrowBranches? portable distinct known ((distinct.get? there).get? found)
    (((throughout_schema_iff own).mp (known.entry there)).2 _ _ _ allOf_mem_places found) inner

theorem components_mem_places : ("components", Role.part .components) ∈ Part.document.places := by
  simp [Part.places]

theorem schemas_mem_places : ("schemas", Role.map .schema) ∈ Part.components.places := by
  simp [Part.places]

/-- The components of a description are visited. -/
theorem throughout_schemas (h : Throughout p (.part .document) d.root)
    (hs : d.schemas = some schemas) : Throughout p (.map .schema) (.obj schemas) := by
  obtain ⟨root, components, hr, hc, hs⟩ := Document.schemas_eq_some_iff.mp hs
  rw [hr] at h
  have inside := throughout_part_iff.mp h _ _ _ components_mem_places hc
  exact throughout_part_iff.mp inside _ _ _ schemas_mem_places hs

theorem throughout_withSchemas (hs : d.schemas = some schemas) {new : Json.Members}
    (h : Throughout p (.part .document) d.root) (put : Throughout p (.map .schema) (.obj new)) :
    Throughout p (.part .document) (d.withSchemas new).root := by
  obtain ⟨root⟩ := d
  obtain ⟨root, components, rfl, hc, hs⟩ := Document.schemas_eq_some_iff.mp hs
  have inside := throughout_part_iff.mp h _ _ _ components_mem_places hc
  simp only [Document.withSchemas, hc]
  refine h.replace_part fun role place => ?_
  obtain rfl : role = .part .components := by simpa [Part.places] using place
  refine inside.replace_part fun role place => ?_
  obtain rfl : role = .map .schema := by simpa [Part.places, holderSections] using place
  exact put

/-- What is stored has a property throughout when the description had it and what is asked for
has. -/
theorem throughout_store (portable : Portable p) {ns : List Narrowing}
    (distinct : (store ns d).root.Distinct) (h : Throughout p (.part .document) d.root)
    (asked : ∀ schemas, d.schemas = some schemas → ∀ n ∈ ns, ∀ target,
      schemas.get? n.1 = some (.obj target) → target.contains "$ref" = false →
        Throughout p (.list .schema) (.arr n.2)) :
    Throughout p (.part .document) (store ns d).root := by
  cases hs : d.schemas with
  | none =>
    unfold store
    rw [hs]
    exact h
  | some schemas =>
    have stored : (store ns d).schemas = some (ns.foldl applyNarrowing schemas) := by
      rw [schemas_store, hs, Option.map_some]
    have keys := (Document.distinct_schemas distinct stored).keys
    have known := throughout_schemas h hs
    -- A component is what it was, with the `allOf` that is stored last under its name.
    rw [store, hs]
    refine throughout_withSchemas hs h (throughout_map_iff.mpr fun e he => ?_)
    have there := (Dict.get?_eq_some_iff keys).mpr he
    rw [get?_foldl_applyNarrowing] at there
    obtain ⟨v, found, made⟩ := Option.map_eq_some_iff.mp there
    have before := known.entry found
    rw [← made]
    cases latest : latest? ns e.1 with
    | none =>
      rw [withAllOf_none]
      exact before
    | some results =>
      cases v with
      | obj target =>
        exact throughout_insert_allOf portable before
          fun own => asked schemas hs _ (mem_of_latest? latest) target found own
      | null | bool _ | int _ | float _ | str _ | arr _ => exact before

/-- What holds of every schema that a walk visits before a pass holds of them afterwards, when
copying keeps it and what the pass rewrites has it. -/
theorem throughout_pass (portable : Portable p) (distinct : d.root.Distinct)
    (h : Throughout p (.part .document) d.root)
    (here : ∀ node property mapping, Visits (.part .document) d.root node →
      IsChoice node property mapping → p (flatten (d.schemas.getD .empty) node).1) :
    Throughout p (.part .document) (pass d).1.root := by
  have keys : (Json.obj (d.schemas.getD .empty)).Distinct := by
    cases hs : d.schemas with
    | none => exact Json.distinct_empty
    | some schemas => exact Document.distinct_schemas distinct hs
  have known : Throughout p (.map .schema) (.obj (d.schemas.getD .empty)) := by
    cases hs : d.schemas with
    | none => exact throughout_map_iff.mpr nofun
    | some schemas => exact throughout_schemas h hs
  have walked : Throughout p (.part .document) (rewritten d).root := by
    have run := walks_walkDocument (flattenVisitor (d.schemas.getD .empty)) d.root ⟨[], 0⟩
    refine run.throughout trivial (fun n hn s => ?_) fun _ _ _ _ => portable.replace
    have below : Throughout p .schema (.obj n) := fun m hm => h m (hn.trans hm)
    by_cases has : n.contains "discriminator" = true
    · rw [flattenVisitor, if_pos has]
      exact throughout_flatten portable keys known (distinct.of_within hn.within).keys hn.own has
        below fun property mapping choice => here n property mapping hn choice
    · rw [flattenVisitor, if_neg has]
      exact ⟨h n hn, fun _ _ => rfl⟩
  rw [pass_eq]
  refine throughout_store portable (pass_eq d ▸ distinct_pass distinct) walked
    fun schemas hs n hn target there own => ?_
  -- What was asked for was made of a component that is no reference, since it is none afterwards.
  have asked := asked_of_mem_narrowings hn
  obtain ⟨schemas₀, schema, hs₀, before⟩ := asked.exists_component
  obtain ⟨u, s, s', run, after⟩ :=
    exists_route_rewritten (route_component_iff.mpr ⟨schemas₀, hs₀, before⟩)
  obtain ⟨_, hs', there'⟩ := route_component_iff.mp after
  cases hs'.symm.trans hs
  cases there'.symm.trans there
  rw [hs₀, Option.getD_some] at keys known
  refine throughout_of_asked portable keys known (by rw [hs₀]; rfl) asked before ?_
  by_contra ref
  rw [Bool.not_eq_false] at ref
  cases run.eq_of_ref ref
  rw [own] at ref
  cases ref

/-- So does any number of passes, when it holds of what each of them rewrites. -/
theorem throughout_passed (portable : Portable p) (distinct : d.root.Distinct)
    (h : Throughout p (.part .document) d.root)
    (here : ∀ k node property mapping, Visits (.part .document) (passed k d).root node → p node →
      IsChoice node property mapping → p (flatten ((passed k d).schemas.getD .empty) node).1)
    (k : Nat) : Throughout p (.part .document) (passed k d).root := by
  induction k with
  | zero => exact h
  | succ k ih =>
    rw [passed_succ]
    exact throughout_pass portable (distinct_passed distinct k) ih
      fun node property mapping visit => here k node property mapping visit (ih node visit)

/-- The walk that drops discriminators leaves a portable property as well. -/
theorem throughout_dropped (portable : Portable p) (distinct : d.root.Distinct)
    (h : Throughout p (.part .document) d.root) :
    Throughout p (.part .document) (dropped d).root := by
  refine (walks_walkDocument dropVisitor d.root ()).throughout trivial (fun n hn s => ?_)
    fun _ _ _ _ => portable.replace
  have keys := (distinct.of_within hn.within).keys
  exact ⟨portable.swapErase keys (h n hn), fun key => get?_swapErase_of_mem_places keys⟩

end

end ToolGateway.Schema.Discriminator
