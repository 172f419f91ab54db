import Mathlib.Data.List.Forall2
import Mathlib.Data.List.Induction
import ToolGateway.Proofs.Schema.Flattening
import ToolGateway.Proofs.Schema.Route

/-!
# The branches of a flattened schema

A pass rewrites a schema with a discriminator that names a property and maps its values
(`IsChoice`): what it finds for the entries of the mapping is put behind the `oneOf` branches that
the schema has already (`flatten_of_isChoice`). The walk of a pass leaves the places above such a
schema, and what is stored under the names of components afterwards changes nothing but their
`allOf`. So the rewritten schema stands where the schema stood, with one branch for each entry found
if it had no branches before (`pass_branches`).
-/

namespace ToolGateway.Schema.Discriminator

variable {schemas node : Json.Members} {property value : String} {mapping : Json.Members}

/-! ### What becomes of one schema -/

/-- A schema that a pass rewrites: no reference, with a discriminator that names a property and maps
its values. -/
structure IsChoice (node : Json.Members) (property : String) (mapping : Json.Members) : Prop where
  own : node.contains "$ref" = false
  discriminator : ∃ v, node.get? "discriminator" = some v ∧
    v.getStr? "propertyName" = some property ∧ v.getObj? "mapping" = some mapping

/-- The branches that a schema has before it is rewritten. -/
def existing (node : Json.Members) : List Json := ((node.get? "oneOf").bind Json.arr?).getD []

theorem exists_of_mem_existing {b : Json} (h : b ∈ existing node) :
    ∃ branches, node.get? "oneOf" = some (.arr branches) ∧ b ∈ branches := by
  unfold existing at h
  cases listed : (node.get? "oneOf").bind Json.arr? with
  | none =>
    rw [listed] at h
    cases h
  | some branches =>
    rw [listed] at h
    exact ⟨branches, Json.bind_arr?_eq_some_iff.mp listed, h⟩

/-- The schema that the target of a mapping entry names. -/
def target? (schemas : Json.Members) (target : Json) : Option Json.Members :=
  target.str?.bind fun reference => (schemas.get? (Document.simpleName reference)).bind Json.obj?

/-- The mapping entries whose targets are found, with the schemas found. -/
def found (schemas : Json.Members) (entries : List (String × Json)) :
    List (String × Json.Members) :=
  entries.filterMap fun (value, target) => (target? schemas target).map (value, ·)

/-- A branch is the variant for a value and the schema found for it. -/
inductive IsVariant (schemas : Json.Members) (property : String) :
    String × Json.Members → Json → Prop
  | direct {value : String} {schema : Json.Members} (declared : declares schema property = true) :
      IsVariant schemas property (value, schema) (.obj (narrowed schema property value))
  | composed {value : String} {schema : Json.Members} {parts results : List Json}
      (undeclared : declares schema property = false)
      (whole : (schema.get? "allOf").bind Json.arr? = some parts)
      (inner : narrowBranches? schemas property value parts = some results) :
      IsVariant schemas property (value, schema)
        (.obj ((schema.swapErase "discriminator").insert "allOf" (.arr results)))
  | plain {value : String} {schema : Json.Members} (undeclared : declares schema property = false)
      (nowhere : ((schema.get? "allOf").bind Json.arr?).bind
        (narrowBranches? schemas property value) = none) :
      IsVariant schemas property (value, schema) (.obj schema)

/-- An entry has a variant when its target is found. -/
theorem rel_variant? (schemas : Json.Members) (property : String) (entry : String × Json) :
    Option.Rel (IsVariant schemas property) ((target? schemas entry.2).map (entry.1, ·))
      ((variant? schemas property entry.1 entry.2).map (·.1)) := by
  obtain ⟨value, target⟩ := entry
  cases hr : target.str? with
  | none =>
    simp only [target?, variant?, hr]
    exact .none
  | some reference =>
    cases hs : (schemas.get? (Document.simpleName reference)).bind Json.obj? with
    | none =>
      simp only [target?, variant?, hr, hs, Option.bind_eq_bind, Option.bind_some,
        Option.bind_none]
      exact .none
    | some schema =>
      simp only [target?, variant?, hr, hs, Option.bind_eq_bind, Option.bind_some]
      cases hd : declares schema property with
      | true => exact .some (.direct hd)
      | false =>
        cases hp : ((schema.get? "allOf").bind Json.arr?).bind
            (narrowBranches? schemas property value) with
        | none => exact .some (.plain hd hp)
        | some results =>
          obtain ⟨parts, whole, inner⟩ := Option.bind_eq_some_iff.mp hp
          exact .some (.composed hd whole inner)

/-- The variants of a mapping are those of the entries found, in order. -/
theorem forall₂_variants (schemas : Json.Members) (property : String)
    (entries : List (String × Json)) :
    List.Forall₂ (IsVariant schemas property) (found schemas entries)
      (variants schemas property ⟨entries⟩).1 := by
  show List.Forall₂ _ _ (List.map _ (List.filterMap _ entries))
  rw [List.map_filterMap]
  refine List.rel_filterMap (R := Eq) ?_ (List.forall₂_same.mpr fun _ _ => rfl)
  rintro entry _ rfl
  exact rel_variant? schemas property entry

theorem get?_insert_swapErase (keys : node.keys.Nodup) (k key : String) (v : Json) :
    ((node.swapErase k).insert k v).get? key = if k = key then some v else node.get? key := by
  rw [Dict.get?_insert, Dict.get?_swapErase keys]
  split <;> rfl

/-- What is found in a schema after it was rewritten. -/
theorem flatten_of_isChoice (keys : node.keys.Nodup) (h : IsChoice node property mapping)
    (key : String) :
    (flatten schemas node).1.get? key =
      if "properties" = key then none
      else if "oneOf" = key then some (.arr (existing node ++ (variants schemas property mapping).1))
      else if "discriminator" = key then none
      else node.get? key := by
  obtain ⟨v, there, name, mapped⟩ := h.discriminator
  have rest := Dict.nodup_keys_swapErase keys (k := "discriminator")
  have branches : ((node.swapErase "discriminator").get? "oneOf").bind Json.arr? =
      (node.get? "oneOf").bind Json.arr? := by
    rw [Dict.get?_swapErase_of_ne keys (by decide)]
  have last := Dict.nodup_keys_insert
    (Dict.nodup_keys_swapErase rest (k := "oneOf")) (k := "oneOf")
    (v := Json.arr (existing node ++ (variants schemas property mapping).1))
  simp only [flatten, there, name, mapped, branches]
  rw [← existing, Dict.get?_swapErase last, get?_insert_swapErase rest, Dict.get?_swapErase keys]

/-! ### Schemas that a pass goes below -/

/-- A schema without a discriminator: a pass goes on below it. -/
def IsOpen (node : Json.Members) : Prop := node.contains "discriminator" = false

theorem IsOpen.replace (h : IsOpen node) {k : String} (w : Json) (place : k ∈ places.map (·.1)) :
    IsOpen (node.replace k w) := by
  rw [IsOpen, Dict.contains, Dict.get?_replace_of_ne (ne_of_mem_places k place).2.1]
  exact h

theorem leaves_flattenVisitor (schemas : Json.Members) :
    Leaves (flattenVisitor schemas) IsOpen where
  still n hn s := by
    rw [flattenVisitor, show n.contains "discriminator" = false from hn]
    rfl
  keeps _ _ w place hn := hn.replace w place

/-! ### What a pass stores -/

/-- The narrowings that a pass asks for. -/
def narrowings (d : Document) : List Narrowing :=
  (walkDocument (flattenVisitor (d.schemas.getD .empty)) d.root ⟨[], 0⟩).2.narrowings

/-- A description after the walk of a pass, before the narrowings are stored. -/
def rewritten (d : Document) : Document :=
  ⟨(walkDocument (flattenVisitor (d.schemas.getD .empty)) d.root ⟨[], 0⟩).1⟩

/-- Stores narrowings under the names of schemas. -/
def store (ns : List Narrowing) (d : Document) : Document :=
  match d.schemas with
  | some schemas => d.withSchemas (ns.foldl applyNarrowing schemas)
  | none => d

/-- A pass is a walk, after which the narrowings are stored. -/
theorem pass_eq (d : Document) : (pass d).1 = store (narrowings d) (rewritten d) := by
  unfold pass store narrowings rewritten
  generalize walkDocument (flattenVisitor (d.schemas.getD .empty)) d.root ⟨[], 0⟩ = walked
  dsimp only
  cases (Document.mk walked.1).schemas <;> rfl

/-- Two schemas that differ in their `allOf` only. -/
def Alike (node node' : Json.Members) : Prop :=
  ∀ key, key ≠ "allOf" → node'.get? key = node.get? key

theorem Alike.contains {node' : Json.Members} (h : Alike node node') {key : String}
    (ne : key ≠ "allOf") : node'.contains key = node.contains key := by
  rw [Dict.contains, h key ne]
  rfl

/-- The branches that are asked for last under a name. -/
def latest? (ns : List Narrowing) (name : String) : Option (List Json) := ns.reverse.lookup name

theorem latest?_append_singleton (ns : List Narrowing) (n : Narrowing) (name : String) :
    latest? (ns ++ [n]) name = if n.1 = name then some n.2 else latest? ns name := by
  rw [latest?, List.reverse_append, List.reverse_singleton, List.singleton_append, List.lookup_cons]
  by_cases h : n.1 = name
  · rw [if_pos h, h, beq_self_eq_true]
  · rw [if_neg h, beq_false_of_ne (Ne.symm h)]
    rfl

theorem mem_of_latest? {ns : List Narrowing} {name : String} {branches : List Json}
    (h : latest? ns name = some branches) : (name, branches) ∈ ns := by
  obtain ⟨later, earlier, same, -⟩ := List.lookup_eq_some_iff.mp h
  rw [← List.mem_reverse, same]
  exact List.mem_append_right _ List.mem_cons_self

theorem exists_latest? {ns : List Narrowing} {name : String} {branches : List Json}
    (h : (name, branches) ∈ ns) : ∃ last, latest? ns name = some last := by
  cases asked : latest? ns name with
  | some last => exact ⟨last, rfl⟩
  | none =>
    have other := List.lookup_eq_none_iff.mp asked _ (List.mem_reverse.mpr h)
    simp at other

/-- A schema with the `allOf` that is asked for, if one is; what is no object stays. -/
def withAllOf (asked : Option (List Json)) (v : Json) : Json :=
  match v, asked with
  | .obj target, some branches => .obj (target.insert "allOf" (.arr branches))
  | v, _ => v

theorem withAllOf_none (v : Json) : withAllOf none v = v := by
  cases v <;> rfl

/-- Only the `allOf` that was put in last is left. -/
theorem withAllOf_withAllOf (branches : List Json) (asked : Option (List Json)) (v : Json) :
    withAllOf (some branches) (withAllOf asked v) = withAllOf (some branches) v := by
  cases v with
  | obj target =>
    cases asked with
    | none => rfl
    | some old => exact congrArg Json.obj Dict.insert_insert
  | null | bool _ | int _ | float _ | str _ | arr _ => rfl

theorem get?_applyNarrowing (schemas : Json.Members) (n : Narrowing) (name : String) :
    (applyNarrowing schemas n).get? name =
      (schemas.get? name).map (withAllOf (if n.1 = name then some n.2 else none)) := by
  obtain ⟨key, branches⟩ := n
  unfold applyNarrowing
  by_cases h : key = name
  · subst h
    rw [if_pos rfl]
    dsimp only
    split
    · next target there =>
      rw [Dict.get?_replace_self (Dict.contains_of_get? there), there]
      rfl
    · next other =>
      cases there : schemas.get? key with
      | none => rfl
      | some v =>
        cases v with
        | obj target => exact absurd there (other target)
        | null | bool _ | int _ | float _ | str _ | arr _ => rfl
  · rw [if_neg h, funext withAllOf_none, Option.map_id_fun']
    dsimp only
    split
    · exact Dict.get?_replace_of_ne h
    · rfl

/-- Under a name stands afterwards what stood there before, with the `allOf` that was asked for
last. -/
theorem get?_foldl_applyNarrowing (ns : List Narrowing) (schemas : Json.Members) (name : String) :
    (ns.foldl applyNarrowing schemas).get? name =
      (schemas.get? name).map (withAllOf (latest? ns name)) := by
  induction ns using List.reverseRecOn with
  | nil =>
    show schemas.get? name = _
    rw [latest?, List.reverse_nil, List.lookup_nil, funext withAllOf_none, Option.map_id_fun']
    rfl
  | append_singleton ns n ih =>
    rw [List.foldl_append, List.foldl_cons, List.foldl_nil, get?_applyNarrowing, ih,
      Option.map_map, latest?_append_singleton]
    split
    · exact congrArg (Option.map · _) (funext fun v => withAllOf_withAllOf _ _ v)
    · exact congrArg (Option.map · _) (funext fun v => withAllOf_none _)

theorem alike_insert (node : Json.Members) (v : Json) : Alike node (node.insert "allOf" v) := by
  intro key ne
  rw [Dict.get?_insert, if_neg ne.symm]

/-- No narrowing is stored over what stands at a place. -/
def Spared (ns : List Narrowing) (steps : List String) : Prop :=
  ∀ name ∈ ns.map (·.1), ¬["components", "schemas", name, "allOf"] <+: steps

theorem Alike.refl (node : Json.Members) : Alike node node := fun _ _ => rfl

/-- A route that does not go through the `allOf` of a schema leads on in one that is alike. -/
theorem Alike.route {node' m : Json.Members} {steps : List String} (h : Alike node node')
    (route : Route IsOpen .schema (.obj node) steps .schema (.obj m))
    (apart : ¬["allOf"] <+: steps) :
    ∃ m', Alike m m' ∧ Route IsOpen .schema (.obj node') steps .schema (.obj m') := by
  cases route with
  | here => exact ⟨node', h, .here⟩
  | @under _ k _ _ _ _ steps own through place there rest =>
    have ne : k ≠ "allOf" := by
      rintro rfl
      exact apart ⟨steps, rfl⟩
    refine ⟨m, .refl m, .under ?_ ?_ place ((h k ne).trans there) rest⟩
    · exact (h.contains (by decide)).trans own
    · exact (h.contains (by decide)).trans through

/-- The routes to the named schemas of a description. -/
theorem route_component_iff {d : Document} {name : String} {v : Json} :
    Route IsOpen (.part .document) d.root ["components", "schemas", name] .schema v ↔
      ∃ schemas, d.schemas = some schemas ∧ schemas.get? name = some v := by
  constructor
  · intro h
    generalize hd : d.root = root at h
    cases h with
    | part place there rest =>
      obtain rfl := by simpa [Part.places] using place
      cases rest with
      | part place within rest =>
        obtain rfl := by simpa [Part.places, holderSections] using place
        cases rest with
        | entry found rest =>
          cases rest with
          | here => exact ⟨_, Document.schemas_eq_some_iff.mpr ⟨_, _, hd, there, within⟩, found⟩
  · rintro ⟨schemas, hs, found⟩
    obtain ⟨root, components, hr, hc, hs⟩ := Document.schemas_eq_some_iff.mp hs
    have outer : ("components", Role.part .components) ∈ Part.document.places := by
      simp [Part.places]
    have inner : ("schemas", Role.map .schema) ∈ Part.components.places := by
      simp [Part.places]
    rw [hr]
    exact .part outer hc (.part inner hs (.entry found .here))

/-- Narrowings leave a route through the named schemas that they spare. -/
theorem exists_route_applyNarrowing {ns : List Narrowing} {steps : List String} {m : Json.Members}
    (route : Route IsOpen (.map .schema) (.obj schemas) steps .schema (.obj m))
    (spared : ∀ name ∈ ns.map (·.1), ¬[name, "allOf"] <+: steps) :
    ∃ m', Alike m m' ∧ Route IsOpen (.map .schema) (.obj (ns.foldl applyNarrowing schemas)) steps
      .schema (.obj m') := by
  cases route with
  | @entry _ _ entries name _ _ steps found rest =>
    have after := get?_foldl_applyNarrowing ns ⟨entries⟩ name
    rw [show Dict.get? ⟨entries⟩ name = _ from found, Option.map_some] at after
    cases asked : latest? ns name with
    | none =>
      rw [asked, withAllOf_none] at after
      exact ⟨m, .refl m, .entry after rest⟩
    | some branches =>
      rw [asked] at after
      have mem : name ∈ ns.map (·.1) := List.mem_map_of_mem (mem_of_latest? asked)
      obtain ⟨node, rfl⟩ := rest.exists_obj
      have apart : ¬["allOf"] <+: steps := by
        intro first
        apply spared name mem
        simpa using first
      obtain ⟨m', alike, rest⟩ := (alike_insert node (.arr branches)).route rest apart
      exact ⟨m', alike, .entry after rest⟩

/-- What is stored leaves a route that it spares. -/
theorem exists_route_store {ns : List Narrowing} {d : Document} {steps : List String}
    {m : Json.Members} (route : Route IsOpen (.part .document) d.root steps .schema (.obj m))
    (spared : Spared ns steps) :
    ∃ m', Alike m m' ∧
      Route IsOpen (.part .document) (store ns d).root steps .schema (.obj m') := by
  unfold store
  cases hs : d.schemas with
  | none => exact ⟨m, .refl m, route⟩
  | some schemas =>
    obtain ⟨root⟩ := d
    obtain ⟨root, components, rfl, hc, hs⟩ := Document.schemas_eq_some_iff.mp hs
    simp only [Document.withSchemas, hc]
    have atComponents := Dict.get?_replace_self (Dict.contains_of_get? hc)
      (v := Json.obj (components.replace "schemas" (.obj (ns.foldl applyNarrowing schemas))))
    have atSchemas := Dict.get?_replace_self (Dict.contains_of_get? hs)
      (v := Json.obj (ns.foldl applyNarrowing schemas))
    -- Only a route through the named schemas comes to what is stored.
    cases route with
    | @part _ _ k role _ _ _ steps place there rest =>
      by_cases hk : k = "components"
      · subst hk
        obtain rfl : role = .part .components := by simpa [Part.places] using place
        cases hc.symm.trans there
        cases rest with
        | @part _ _ k role _ _ _ steps place' there rest =>
          by_cases hk : k = "schemas"
          · subst hk
            obtain rfl : role = .map .schema := by
              simpa [Part.places, holderSections] using place'
            cases hs.symm.trans there
            obtain ⟨m', alike, rest⟩ := exists_route_applyNarrowing rest fun name mem first =>
              spared name mem (by simpa using first)
            exact ⟨m', alike, .part place atComponents (.part place' atSchemas rest)⟩
          · exact ⟨m, .refl m, .part place atComponents
              (.part place' ((Dict.get?_replace_of_ne (Ne.symm hk)).trans there) rest)⟩
      · exact ⟨m, .refl m, .part place ((Dict.get?_replace_of_ne (Ne.symm hk)).trans there) rest⟩

/-! ### A pass at one place -/

/-- The walk of a pass leaves a route. -/
theorem exists_route_rewritten {d : Document} {steps : List String} {v : Json}
    (route : Route IsOpen (.part .document) d.root steps .schema v) :
    ∃ u s s', Walks (flattenVisitor (d.schemas.getD .empty)) (.value .schema v) s u s' ∧
      Route IsOpen (.part .document) (rewritten d).root steps .schema u := by
  obtain ⟨u, s, s', run, -, there⟩ :=
    (walks_walkDocument (flattenVisitor (d.schemas.getD .empty)) d.root ⟨[], 0⟩).along
      (leaves_flattenVisitor _) route
  exact ⟨u, s, s', run, there⟩

/-- A schema with a discriminator is flattened, and the walk does not go on below it. -/
theorem eq_flatten_of_walks {s s' : Progress} {r : Json}
    (h : Walks (flattenVisitor schemas) (.value .schema (.obj node)) s r s')
    (own : node.contains "$ref" = false) (has : node.contains "discriminator" = true) :
    r = .obj (flatten schemas node).1 := by
  cases h with
  | idle none => exact absurd (.here own) (none node)
  | skip _ met =>
    rw [flattenVisitor, if_pos has] at met
    cases met
    rfl
  | descend _ met _ =>
    rw [flattenVisitor, if_pos has] at met
    cases met

/-- After the pass what was flattened stands in its place, with another `allOf` at most, unless a
narrowing is stored over it. -/
theorem exists_flatten_pass {d : Document} {steps : List String}
    (route : Route IsOpen (.part .document) d.root steps .schema (.obj node))
    (own : node.contains "$ref" = false) (has : node.contains "discriminator" = true)
    (spared : Spared (narrowings d) steps) :
    ∃ m, Alike (flatten (d.schemas.getD .empty) node).1 m ∧
      Route IsOpen (.part .document) (pass d).1.root steps .schema (.obj m) := by
  obtain ⟨u, s, s', run, there⟩ := exists_route_rewritten route
  obtain rfl := eq_flatten_of_walks run own has
  rw [pass_eq]
  exact exists_route_store there spared

theorem IsChoice.has (h : IsChoice node property mapping) :
    node.contains "discriminator" = true := by
  obtain ⟨v, there, -⟩ := h.discriminator
  exact Dict.contains_of_get? there

/-- A schema that was flattened to the given branches. -/
structure IsOneOf (node : Json.Members) (branches : List Json) : Prop where
  own : node.contains "$ref" = false
  properties : node.get? "properties" = none
  discriminator : node.get? "discriminator" = none
  branches : node.get? "oneOf" = some (.arr branches)

theorem isOneOf_flatten (keys : node.keys.Nodup) (h : IsChoice node property mapping) :
    IsOneOf (flatten schemas node).1 (existing node ++ (variants schemas property mapping).1) := by
  have own := Dict.contains_eq_false_iff.mp h.own
  refine ⟨Dict.contains_eq_false_iff.mpr ?_, ?_, ?_, ?_⟩ <;>
    simp [flatten_of_isChoice keys h, own]

theorem IsOneOf.of_alike {node' : Json.Members} {branches : List Json} (h : IsOneOf node branches)
    (alike : Alike node node') : IsOneOf node' branches where
  own := (alike.contains (by decide)).trans h.own
  properties := (alike _ (by decide)).trans h.properties
  discriminator := (alike _ (by decide)).trans h.discriminator
  branches := (alike _ (by decide)).trans h.branches

/-- A schema that is rewritten stands in its place after the pass, unless a narrowing is stored over
it. -/
theorem exists_isOneOf_pass {d : Document} (distinct : d.root.Distinct) {steps : List String}
    (route : Route IsOpen (.part .document) d.root steps .schema (.obj node))
    (choice : IsChoice node property mapping) (spared : Spared (narrowings d) steps) :
    ∃ m, Route IsOpen (.part .document) (pass d).1.root steps .schema (.obj m) ∧
      IsOneOf m (existing node ++ (variants (d.schemas.getD .empty) property mapping).1) := by
  obtain ⟨m, alike, there⟩ := exists_flatten_pass route choice.own choice.has spared
  have keys := route.nodup_keys distinct
  exact ⟨m, there, (isOneOf_flatten keys choice).of_alike alike⟩

/-- A component itself is spared. -/
theorem spared_component (ns : List Narrowing) (name : String) :
    Spared ns ["components", "schemas", name] := by
  intro other _ first
  have := first.length_le
  simp at this

/-- Branches before those of the entries found leave one for each entry only when there are none. -/
theorem forall₂_append_iff {α β : Type} {R : α → β → Prop} {xs : List α} {old made : List β}
    (h : List.Forall₂ R xs made) : List.Forall₂ R xs (old ++ made) ↔ old = [] := by
  constructor
  · intro all
    have lengths := all.length_eq.symm.trans h.length_eq
    rw [List.length_append] at lengths
    exact List.length_eq_zero_iff.mp (by omega)
  · rintro rfl
    exact h

/-- A pass turns each schema it comes to that has a discriminator with a property name and a mapping
into a `oneOf` without properties and discriminator. Its branches are those it had before, and then
the variants of the mapping entries whose targets are found, in order. So there is one branch for
each such entry and no other exactly when it had none. What the pass stores afterwards leaves the
schema in its place, unless that is below the `allOf` of a component whose narrowing is stored. -/
theorem pass_branches {d : Document} (distinct : d.root.Distinct) {steps : List String}
    {node : Json.Members} {property : String} {mapping : Json.Members}
    (route : Route IsOpen (.part .document) d.root steps .schema (.obj node))
    (choice : IsChoice node property mapping) :
    ∃ made branches, branches = existing node ++ made ∧
      List.Forall₂ (IsVariant (d.schemas.getD .empty) property)
        (found (d.schemas.getD .empty) mapping.entries) made ∧
      (List.Forall₂ (IsVariant (d.schemas.getD .empty) property)
        (found (d.schemas.getD .empty) mapping.entries) branches ↔ existing node = []) ∧
      (∃ m, Pointer.follow (rewritten d).root steps = some (.obj m) ∧ IsOneOf m branches) ∧
      (Spared (narrowings d) steps →
        ∃ m, Pointer.follow (pass d).1.root steps = some (.obj m) ∧ IsOneOf m branches) := by
  have keys := route.nodup_keys distinct
  have each := forall₂_variants (d.schemas.getD .empty) property mapping.entries
  obtain ⟨u, s, s', run, there⟩ := exists_route_rewritten route
  obtain rfl := eq_flatten_of_walks run choice.own choice.has
  refine ⟨_, _, rfl, each, forall₂_append_iff each,
    ⟨_, there.follow, isOneOf_flatten keys choice⟩, fun spared => ?_⟩
  obtain ⟨m, there, flat⟩ := exists_isOneOf_pass distinct route choice spared
  exact ⟨m, there.follow, flat⟩

namespace Sample

/-- The values of `kind`, of which `fish` leads to no known schema. -/
def petMapping : Json.Members :=
  ⟨[("cat", .str "#/components/schemas/Cat"), ("dog", .str "#/components/schemas/Dog"),
    ("fish", .str "#/components/schemas/Fish")]⟩

/-- A choice of pets that lists branches itself. -/
def pet (branches : List Json) : Json.Members :=
  ⟨[("oneOf", .arr branches), ("discriminator", .object [("propertyName", .str "kind"),
    ("mapping", .obj petMapping)])]⟩

/-- An object with the property `kind`. -/
def kinded : Json := .object [("properties", .object [("kind", .object [("type", .str "string")])])]

def petSchemas (branches : List Json) : Json.Members :=
  ⟨[("Pet", .obj (pet branches)), ("Cat", kinded), ("Dog", .object [("allOf", .arr [kinded])])]⟩

/-- A description of pets. -/
def pets (branches : List Json) : Document where
  root := .object [("components", .object [("schemas", .obj (petSchemas branches))])]

/-- The branches of a description that lists its pets by reference. -/
def byReference : List Json :=
  [.object [("$ref", .str "#/components/schemas/Cat")],
    .object [("$ref", .str "#/components/schemas/Dog")]]

theorem distinct_pets (branches : List Json) (h : ∀ v ∈ branches, v.Distinct) :
    (pets branches).root.Distinct := by
  simpa [pets, petSchemas, pet, petMapping, kinded, Json.object, Json.distinct_obj_iff,
    Json.distinct_arr_iff] using h

theorem isChoice_pet (branches : List Json) : IsChoice (pet branches) "kind" petMapping :=
  ⟨rfl, _, rfl, rfl, rfl⟩

theorem route_pet (branches : List Json) : Route IsOpen (.part .document) (pets branches).root
    ["components", "schemas", "Pet"] .schema (.obj (pet branches)) :=
  route_component_iff.mpr ⟨petSchemas branches, rfl, rfl⟩

end Sample

open Sample in
/-- The statement at a choice of pets without branches. -/
theorem pass_branches_pets :
    (pets []).root.Distinct ∧
      ∃ made branches, branches = existing (pet []) ++ made ∧
        List.Forall₂ (IsVariant (petSchemas []) "kind")
          (found (petSchemas []) petMapping.entries) made ∧
        (List.Forall₂ (IsVariant (petSchemas []) "kind")
          (found (petSchemas []) petMapping.entries) branches ↔ existing (pet []) = []) ∧
        (∃ m, Pointer.follow (rewritten (pets [])).root ["components", "schemas", "Pet"] =
          some (.obj m) ∧ IsOneOf m branches) ∧
        (Spared (narrowings (pets [])) ["components", "schemas", "Pet"] →
          ∃ m, Pointer.follow (pass (pets [])).1.root ["components", "schemas", "Pet"] =
            some (.obj m) ∧ IsOneOf m branches) := by
  have distinct : (pets []).root.Distinct := distinct_pets [] (by simp)
  exact ⟨distinct, pass_branches distinct (route_pet []) (isChoice_pet [])⟩

open Sample in
/-- Pets that are listed by reference next to the discriminator become branches twice: the pass
finds two of the three mapping entries and leaves four branches. -/
theorem pass_keeps_references :
    Pointer.follow (pets byReference).root ["components", "schemas", "Pet"] =
        some (.obj (pet byReference)) ∧
      IsChoice (pet byReference) "kind" petMapping ∧
      (found (petSchemas byReference) petMapping.entries).length = 2 ∧
      ∃ m branches, Pointer.follow (pass (pets byReference)).1.root
          ["components", "schemas", "Pet"] = some (.obj m) ∧
        m.get? "oneOf" = some (.arr branches) ∧ branches.length = 4 := by
  have distinct : (pets byReference).root.Distinct := by
    apply distinct_pets
    simp [byReference, Json.object, Json.distinct_obj_iff]
  obtain ⟨m, there, flat⟩ := exists_isOneOf_pass distinct (route_pet _) (isChoice_pet _)
    (spared_component _ "Pet")
  refine ⟨rfl, isChoice_pet _, by decide +kernel, m, _, there.follow, flat.branches, ?_⟩
  show (byReference ++ (variants (petSchemas byReference) "kind" petMapping).1).length = 4
  decide +kernel

end ToolGateway.Schema.Discriminator
