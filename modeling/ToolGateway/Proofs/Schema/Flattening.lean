import ToolGateway.Proofs.Schema.Visited
import ToolGateway.Schema.Filter

/-!
# Flattening leaves no discriminator

A pass over a description copies whole components to the places it rewrites, and their
discriminators with them, so a pass can bring as many discriminators as it removes. The filter still
ends without any (`Filter.flattenDiscriminators_clears`): it ends with a pass that came to no node
with a discriminator, and such a pass changes nothing, or it ends with the walk that drops them,
which changes a node in no place where a walk goes on. A walk tells on each node by its look-ups, so
what a pass puts together must repeat no key (`distinct_pass`).
-/

namespace ToolGateway

/-- The schemas of a description stand below its components. -/
theorem Document.schemas_eq_some_iff {d : Document} {schemas : Json.Members} :
    d.schemas = some schemas ↔ ∃ root components, d.root = .obj root ∧
      root.get? "components" = some (.obj components) ∧
      components.get? "schemas" = some (.obj schemas) := by
  constructor
  · intro h
    have within := Json.bind_obj?_eq_some_iff.mp h
    obtain ⟨components, hc, hs⟩ := Option.bind_eq_some_iff.mp within
    obtain ⟨root, hr, hc⟩ := Json.get?_eq_some_iff.mp hc
    obtain ⟨components, rfl, hs⟩ := Json.get?_eq_some_iff.mp hs
    exact ⟨root, components, hr, hc, hs⟩
  · rintro ⟨root, components, hr, hc, hs⟩
    simp [Document.schemas, within, hr, Json.get?, hc, hs, Json.obj?]

/-- The schemas of a description that repeats no key repeat none. -/
theorem Document.distinct_schemas {d : Document} (h : d.root.Distinct) {schemas : Json.Members}
    (hs : d.schemas = some schemas) : (Json.obj schemas).Distinct := by
  obtain ⟨v, hv, ho⟩ := Option.bind_eq_some_iff.mp hs
  obtain ⟨components, hc, hv⟩ := Option.bind_eq_some_iff.mp hv
  exact ((h.inner hc).inner hv).obj? ho

theorem Document.distinct_withSchemas {d : Document} (h : d.root.Distinct) {schemas : Json.Members}
    (hs : (Json.obj schemas).Distinct) : (d.withSchemas schemas).root.Distinct := by
  unfold withSchemas
  split
  · next root hroot =>
    rw [hroot] at h
    split
    · next components hc => exact h.replace ((h.get? hc).replace hs)
    · rw [hroot]
      exact h
  · exact h

/-- Putting the schemas of a description in their own place changes nothing. -/
theorem Document.withSchemas_self {d : Document} {schemas : Json.Members}
    (hs : d.schemas = some schemas) : d.withSchemas schemas = d := by
  obtain ⟨root⟩ := d
  obtain ⟨root, components, rfl, hc, hs⟩ := schemas_eq_some_iff.mp hs
  simp only [withSchemas, hc, Dict.replace_of_get? hs, Dict.replace_of_get? hc]

/-- What is put in place of the schemas of a description are its schemas afterwards. -/
theorem Document.schemas_withSchemas {d : Document} {old : Json.Members} (hs : d.schemas = some old)
    (schemas : Json.Members) : (d.withSchemas schemas).schemas = some schemas := by
  obtain ⟨root⟩ := d
  obtain ⟨root, components, rfl, hc, hs⟩ := schemas_eq_some_iff.mp hs
  have put : (⟨.obj root⟩ : Document).withSchemas schemas =
      ⟨.obj (root.replace "components" (.obj (components.replace "schemas" (.obj schemas))))⟩ := by
    simp only [withSchemas, hc]
  rw [put]
  exact schemas_eq_some_iff.mpr ⟨_, _, rfl,
    Dict.get?_replace_self (Dict.contains_of_get? hc),
    Dict.get?_replace_self (Dict.contains_of_get? hs)⟩

namespace Schema.Discriminator

variable {schemas node : Json.Members} {property value : String}

/-! ### What a pass puts together repeats no key -/

theorem distinct_constant (value : String) : (constant value).Distinct := by
  have items : (Json.arr [.str value]).Distinct := by
    simp [Json.distinct_arr_iff]
  have keys : ["type", "enum", "default", "description"].Nodup := by decide
  refine Json.distinct_obj_iff.mpr ⟨keys, ?_⟩
  simp [items]

theorem distinct_narrowed (h : (Json.obj node).Distinct) :
    (Json.obj (narrowed node property value)).Distinct := by
  unfold narrowed
  dsimp only
  split
  · next properties hp =>
    exact h.swapErase.replace ((h.swapErase.get? hp).insert (distinct_constant value))
  · exact h.swapErase

theorem distinct_declaring? {branch : Json} (hs : (Json.obj schemas).Distinct)
    (hb : branch.Distinct) (h : declaring? schemas property branch = some node) :
    (Json.obj node).Distinct := by
  obtain ⟨h, -⟩ := Option.filter_eq_some_iff.mp h
  split at h
  · obtain ⟨v, hv, ho⟩ := Option.bind_eq_some_iff.mp h
    exact (hs.get? hv).obj? ho
  · exact hb.obj? h

theorem distinct_narrowBranches? {branches results : List Json} (hs : (Json.obj schemas).Distinct)
    (hb : (Json.arr branches).Distinct)
    (h : narrowBranches? schemas property value branches = some results) :
    (Json.arr results).Distinct := by
  induction branches generalizing results with
  | nil => cases h
  | cons branch branches ih =>
    obtain ⟨first, others⟩ := List.forall_mem_cons.mp (Json.distinct_arr_iff.mp hb)
    rw [narrowBranches?] at h
    split at h
    · next schema hd =>
      cases h
      exact Json.distinct_arr_iff.mpr
        (List.forall_mem_cons.mpr ⟨distinct_narrowed (distinct_declaring? hs first hd), others⟩)
    · obtain ⟨rest, hr, rfl⟩ := Option.map_eq_some_iff.mp h
      have := ih (Json.distinct_arr_iff.mpr others) hr
      exact Json.distinct_arr_iff.mpr
        (List.forall_mem_cons.mpr ⟨first, Json.distinct_arr_iff.mp this⟩)

/-- A narrowing repeats no key in its branches. -/
def Narrowing.Distinct (n : Narrowing) : Prop := (Json.arr n.2).Distinct

theorem distinct_variant? {target v : Json} {asked : Option Narrowing}
    (hs : (Json.obj schemas).Distinct)
    (h : variant? schemas property value target = some (v, asked)) :
    v.Distinct ∧ ∀ n ∈ asked, Narrowing.Distinct n := by
  obtain ⟨reference, -, h⟩ := Option.bind_eq_some_iff.mp h
  obtain ⟨schema, hschema, h⟩ := Option.bind_eq_some_iff.mp h
  obtain ⟨w, hw, ho⟩ := Option.bind_eq_some_iff.mp hschema
  have distinct := (hs.get? hw).obj? ho
  split at h
  · cases h
    exact ⟨distinct_narrowed distinct, nofun⟩
  · split at h
    · next branches hb =>
      cases h
      obtain ⟨old, hold, hb⟩ := Option.bind_eq_some_iff.mp hb
      obtain ⟨a, ha, hold⟩ := Option.bind_eq_some_iff.mp hold
      have branched := distinct_narrowBranches? hs ((distinct.get? ha).arr? hold) hb
      refine ⟨distinct.swapErase.insert branched, ?_⟩
      rintro n ⟨⟩
      exact branched
    · cases h
      exact ⟨distinct, nofun⟩

theorem distinct_variants (hs : (Json.obj schemas).Distinct) (property : String)
    (mapping : Json.Members) :
    (∀ v ∈ (variants schemas property mapping).1, v.Distinct) ∧
      ∀ n ∈ (variants schemas property mapping).2, Narrowing.Distinct n := by
  have each : ∀ e ∈ mapping.entries.filterMap (fun m => variant? schemas property m.1 m.2),
      e.1.Distinct ∧ ∀ n ∈ e.2, Narrowing.Distinct n := by
    intro e he
    obtain ⟨m, -, h⟩ := List.mem_filterMap.mp he
    exact distinct_variant? hs h
  constructor
  · intro v hv
    obtain ⟨e, he, rfl⟩ := List.mem_map.mp hv
    exact (each e he).1
  · intro n hn
    obtain ⟨e, he, hn⟩ := List.mem_filterMap.mp hn
    exact (each e he).2 n hn

theorem distinct_flatten (hs : (Json.obj schemas).Distinct) (hn : (Json.obj node).Distinct) :
    (Json.obj (flatten schemas node).1).Distinct ∧
      ∀ n ∈ (flatten schemas node).2, Narrowing.Distinct n := by
  unfold flatten
  split
  · exact ⟨hn, nofun⟩
  · dsimp only
    split
    · next property mapping _ _ =>
      obtain ⟨branches, narrowings⟩ := distinct_variants hs property mapping
      have existing : ∀ v ∈ (((node.swapErase "discriminator").get? "oneOf").bind
          Json.arr?).getD [], v.Distinct := by
        cases ho : ((node.swapErase "discriminator").get? "oneOf").bind Json.arr? with
        | none => nofun
        | some items =>
          obtain ⟨v, hv, ho⟩ := Option.bind_eq_some_iff.mp ho
          exact Json.distinct_arr_iff.mp ((hn.swapErase.get? hv).arr? ho)
      refine ⟨(hn.swapErase.swapErase.insert (Json.distinct_arr_iff.mpr ?_)).swapErase, narrowings⟩
      exact List.forall_mem_append.mpr ⟨existing, branches⟩
    · exact ⟨hn.swapErase, nofun⟩

theorem distinct_applyNarrowing {n : Narrowing} (hs : (Json.obj schemas).Distinct)
    (hn : Narrowing.Distinct n) : (Json.obj (applyNarrowing schemas n)).Distinct := by
  unfold applyNarrowing
  dsimp only
  split
  · next target ht => exact hs.replace ((hs.get? ht).insert hn)
  · exact hs

theorem distinct_applyNarrowings {ns : List Narrowing} (hs : (Json.obj schemas).Distinct)
    (hn : ∀ n ∈ ns, Narrowing.Distinct n) :
    (Json.obj (ns.foldl applyNarrowing schemas)).Distinct := by
  induction ns generalizing schemas with
  | nil => exact hs
  | cons n ns ih =>
    obtain ⟨first, others⟩ := List.forall_mem_cons.mp hn
    exact ih (distinct_applyNarrowing hs first) others

theorem distinct_pass {d : Document} (h : d.root.Distinct) : (pass d).1.root.Distinct := by
  have schemas : (Json.obj (d.schemas.getD .empty)).Distinct := by
    cases hs : d.schemas with
    | none => exact Json.distinct_empty
    | some _ => exact Document.distinct_schemas h hs
  obtain ⟨root, narrowings⟩ :=
    (walks_walkDocument (flattenVisitor (d.schemas.getD .empty)) d.root ⟨[], 0⟩).distinct
      (p := fun s => ∀ n ∈ s.narrowings, Narrowing.Distinct n) (fun n s hn hs => by
        unfold flattenVisitor
        split
        · obtain ⟨flat, asked⟩ := distinct_flatten schemas hn
          exact ⟨flat, List.forall_mem_append.mpr ⟨hs, asked⟩⟩
        · exact ⟨hn, hs⟩) h nofun
  unfold pass
  dsimp only
  split
  · next hs =>
    exact Document.distinct_withSchemas root
      (distinct_applyNarrowings (Document.distinct_schemas root hs) narrowings)
  · exact root

/-! ### Both exits -/

/-- No node that a walk visits has a discriminator. -/
def Clean (root : Json) : Prop := ∀ n ∈ visited root, n.contains "discriminator" = false

/-- A pass over a clean description changes nothing. -/
theorem pass_of_clean {d : Document} (h : Clean d.root) : pass d = (d, 0) := by
  obtain ⟨root, state⟩ :=
    (walks_walkDocument (flattenVisitor (d.schemas.getD .empty)) d.root ⟨[], 0⟩).unmoved trivial
      fun n hn s => by
        rw [flattenVisitor, h n (mem_visited_iff.mpr hn)]
        rfl
  have walked : walkDocument (flattenVisitor (d.schemas.getD .empty)) d.root ⟨[], 0⟩ =
      (d.root, ⟨[], 0⟩) := Prod.ext root state
  rw [pass, walked]
  cases hs : d.schemas with
  | none => simp only [hs]
  | some schemas => simp only [hs, List.foldl_nil, Document.withSchemas_self hs]

/-- A pass that flattens nothing came to a clean description. -/
theorem clean_of_pass {d : Document} (h : (pass d).2 = 0) : Clean d.root := by
  have last : (walkDocument (flattenVisitor (d.schemas.getD .empty)) d.root ⟨[], 0⟩).2.flattened =
      0 := by
    rw [pass] at h
    dsimp only at h
    split at h <;> exact h
  have back : ∀ n s, (flattenVisitor (d.schemas.getD .empty) n s).2.flattened = 0 →
      s.flattened = 0 ∧ n.contains "discriminator" = false := by
    intro n s hs
    unfold flattenVisitor at hs
    split at hs
    · cases hs
    · next has => exact ⟨hs, by simpa using has⟩
  have on : ∀ n : Json.Members, n.contains "discriminator" = false →
      ∀ s, ∃ n', (flattenVisitor (d.schemas.getD .empty) n s).1 = .descend n' := by
    intro n has s
    exact ⟨n, by simp [flattenVisitor, has]⟩
  intro n hn
  exact (walks_walkDocument (flattenVisitor (d.schemas.getD .empty)) d.root ⟨[], 0⟩).quiet
    (Q := fun s => s.flattened = 0) back on last n (mem_visited_iff.mp hn)

/-- A node without its discriminator has the same at its places. -/
theorem get?_swapErase_of_mem_places {n : Json.Members} (keys : n.keys.Nodup) {key : String}
    (h : key ∈ "$ref" :: places.map (·.1)) :
    (n.swapErase "discriminator").get? key = n.get? key := by
  apply Dict.get?_swapErase_of_ne keys
  rcases List.mem_cons.mp h with rfl | h
  · decide
  · exact (ne_of_mem_places key h).2.1.symm

/-- The walk that drops discriminators leaves none, since it goes on below every node and what
stands at the places of a node is not touched by it. -/
theorem clean_of_drop {root : Json} (h : root.Distinct) :
    Clean (walkDocument dropVisitor root ()).1 := by
  intro n hn
  refine (walks_walkDocument dropVisitor root ()).trimmed
    (p := fun n => n.contains "discriminator" = false) trivial ?_ ?_ n (mem_visited_iff.mp hn)
  · intro n hn s
    have keys : n.keys.Nodup := (h.of_within hn.within).keys
    refine ⟨_, rfl, ?_, fun key => get?_swapErase_of_mem_places keys⟩
    exact Dict.contains_eq_false_iff.mpr (Dict.get?_swapErase_self keys)
  · intro n k w hk hn
    rw [Dict.contains, Dict.get?_replace_of_ne (ne_of_mem_places k hk).2.1]
    exact hn

theorem clean_passes {d : Document} (h : d.root.Distinct) (n : Nat) :
    Clean (passes n d).root := by
  induction n generalizing d with
  | zero => exact clean_of_drop h
  | succ n ih =>
    rw [passes]
    dsimp only
    split
    · next none =>
      have clean := clean_of_pass none
      rw [pass_of_clean clean]
      exact clean
    · exact ih (distinct_pass h)

theorem passes_of_clean {d : Document} (h : Clean d.root) (n : Nat) : passes (n + 1) d = d := by
  rw [passes, pass_of_clean h]
  rfl

theorem flattenAll_of_clean {d : Document} (h : Clean d.root) : flattenAll d = d :=
  passes_of_clean h _

end Schema.Discriminator

namespace Filter

/-- Flattening never fails, and no node that a walk visits afterwards has a discriminator. A
description where no node has one stays as it is, so flattening once more changes nothing. No object
of the tree may hold two members of one key, and none of a tree that was read does. -/
theorem flattenDiscriminators_clears {d : Document} (h : d.root.Distinct) :
    ∃ d', flattenDiscriminators.run d = .ok d' ∧
      (∀ n ∈ Schema.visited d'.root, n.contains "discriminator" = false) ∧
      flattenDiscriminators.run d' = .ok d' ∧
      ((∀ n ∈ Schema.visited d.root, n.contains "discriminator" = false) → d' = d) := by
  have clean := Schema.Discriminator.clean_passes h Schema.Discriminator.maxPasses
  have again := Schema.Discriminator.flattenAll_of_clean clean
  exact ⟨_, rfl, clean, congrArg Except.ok again, Schema.Discriminator.flattenAll_of_clean⟩

namespace Sample

/-- A schema with a discriminator whose only variant is the schema of the given name. -/
def choice (name : String) : Json :=
  .object [("discriminator", .object [("propertyName", .str "kind"),
    ("mapping", .object [("x", .str ("#/components/schemas/" ++ name))])])]

/-- A schema that holds a choice of itself, so that every pass brings new discriminators. -/
def selfSimilar : Document where
  root := .object [("components", .object [("schemas", .object [("Nest", .object [("properties",
    .object [("kind", .object [("type", .str "string")]), ("inner", choice "Nest")])])])])]

theorem distinct_selfSimilar : selfSimilar.root.Distinct := by
  simp [selfSimilar, choice, Json.object, Json.distinct_obj_iff]

end Sample

open Sample in
/-- The statement at a schema that holds a choice of itself. -/
theorem flattenDiscriminators_clears_selfSimilar :
    selfSimilar.root.Distinct ∧ ∃ d', flattenDiscriminators.run selfSimilar = .ok d' ∧
      (∀ n ∈ Schema.visited d'.root, n.contains "discriminator" = false) ∧
      flattenDiscriminators.run d' = .ok d' ∧
      ((∀ n ∈ Schema.visited selfSimilar.root, n.contains "discriminator" = false) →
        d' = selfSimilar) :=
  ⟨distinct_selfSimilar, flattenDiscriminators_clears distinct_selfSimilar⟩

end Filter

end ToolGateway
