import ToolGateway.Proofs.Schema.Portable

/-!
# What flattening leaves alone

A pass rewrites schemas with a discriminator where its walk comes to them, and stores narrowings
under `components.schemas`. Everything else stays (`Kept`): the members of the parts of a
description in which no schemas are, and schemas below which no discriminator is visited. A
component of that kind stays as well, unless a narrowing is stored under its name
(`flattenAll_frame`). That takes an `allOf` to narrow and a mapping that leads to it. The mappings
that a pass comes to are those that the description had at first, since schemas are copied with
their discriminators as they are.
-/

namespace ToolGateway.Schema.Discriminator

variable {σ : Type}

/-! ### Outside the components -/

/-- What flattening keeps of a value in a role. A schema below which no discriminator is visited
stays as it is. Of a part all members stay in which no schemas are, and below the other ones, the
components apart, the same is kept again. -/
inductive Kept : Role → Json → Json → Prop
  | same {role : Role} {v : Json} : Kept role v v
  | schema {role : Role} {v w : Json} (inside : role = .schema ∨ role = .subschema)
      (calm : Throughout IsOpen role v → w = v) : Kept role v w
  | part {p : Part} {node node' : Json.Members} (keys : node'.keys = node.keys)
      (aside : ∀ key, key ∉ p.places.map (·.1) → node'.get? key = node.get? key)
      (below : ∀ k role v w, (k, role) ∈ p.places → ¬(p = .components ∧ k = "schemas") →
        node.get? k = some v → node'.get? k = some w → Kept role v w) :
      Kept (.part p) (.obj node) (.obj node')
  | list {role : Role} {vs ws : List Json} (length : ws.length = vs.length)
      (below : ∀ (i : Nat) v w, vs[i]? = some v → ws[i]? = some w → Kept role v w) :
      Kept (.list role) (.arr vs) (.arr ws)
  | map {role : Role} {node node' : Json.Members} (keys : node'.keys = node.keys)
      (below : ∀ k v w, node.get? k = some v → node'.get? k = some w → Kept role v w) :
      Kept (.map role) (.obj node) (.obj node')

theorem exists_get?_of_keys {node node' : Json.Members} (keys : node'.keys = node.keys) {k : String}
    {v : Json} (there : node.get? k = some v) : ∃ w, node'.get? k = some w := by
  have mem : k ∈ node'.keys := by
    rw [keys, Dict.mem_keys_iff]
    exact Dict.contains_of_get? there
  exact Option.isSome_iff_exists.mp (Dict.mem_keys_iff.mp mem)

theorem exists_getElem?_of_length {α : Type} {xs ys : List α} (length : ys.length = xs.length)
    {i : Nat} {x : α} (there : xs[i]? = some x) : ∃ y, ys[i]? = some y := by
  obtain ⟨lt, -⟩ := List.getElem?_eq_some_iff.mp there
  exact ⟨_, List.getElem?_eq_getElem (length ▸ lt)⟩

theorem Kept.trans {role : Role} {u v w : Json} (h : Kept role u v) (h' : Kept role v w) :
    Kept role u w := by
  -- The second step is of the same kind as the first one, since the role is, or it changes nothing.
  induction h generalizing w with
  | same => exact h'
  | schema inside calm =>
    refine .schema inside fun open_ => ?_
    obtain rfl := calm open_
    cases h' with
    | same => rfl
    | schema _ calm => exact calm open_
    | part _ _ _ | list _ _ | map _ _ => simp at inside
  | part keys aside below ih =>
    cases h' with
    | same => exact .part keys aside below
    | schema inside _ => simp at inside
    | part keys' aside' below' =>
      refine .part (keys'.trans keys) (fun key hkey => (aside' key hkey).trans (aside key hkey))
        fun k role v w place out there there' => ?_
      obtain ⟨u, mid⟩ := exists_get?_of_keys keys there
      exact ih k role v u place out there mid (below' k role u w place out mid there')
  | list length below ih =>
    cases h' with
    | same => exact .list length below
    | schema inside _ => simp at inside
    | list length' below' =>
      refine .list (length'.trans length) fun i v w there there' => ?_
      obtain ⟨u, mid⟩ := exists_getElem?_of_length length there
      exact ih i v u there mid (below' i u w mid there')
  | map keys below ih =>
    cases h' with
    | same => exact .map keys below
    | schema inside _ => simp at inside
    | map keys' below' =>
      refine .map (keys'.trans keys) fun k v w there there' => ?_
      obtain ⟨u, mid⟩ := exists_get?_of_keys keys there
      exact ih k v u there mid (below' k u w mid there')

/-- A walk that leaves open schemas keeps everything outside the schemas. The induction is on the
size of the value, since the walk goes from a part to what stands at its places. -/
theorem kept_of_walks {visit : Visitor σ} (leaves : Leaves visit IsOpen) {role : Role} {v r : Json}
    {s s' : σ} (h : Walks visit (.value role v) s r s') : Kept role v r := by
  induction size : sizeOf v using Nat.strongRecOn generalizing role v r s s' with
  | _ n ih =>
    subst size
    cases role with
    | schema => exact .schema (Or.inl rfl) (h.eq_of_throughout leaves)
    | subschema => exact .schema (Or.inr rfl) (h.eq_of_throughout leaves)
    | part p =>
      cases h with
      | idle _ => exact .same
      | @part _ node _ _ _ run =>
        obtain ⟨m, rfl, aside⟩ := run.exists_obj_get?
        obtain ⟨_, same, keys⟩ := run.exists_obj (p := fun n => n.keys = node.keys)
          (fun n k w _ hn => Dict.keys_replace.trans hn) rfl
        cases same
        refine .part keys aside fun k role v w place _ there there' => ?_
        obtain ⟨_, w', s₁, s₂, same, found, inner, -⟩ :=
          run.exists_at_place ⟨Part.nodup_places p, fun _ _ => rfl⟩ place there
        cases same
        cases found.symm.trans there'
        exact ih _ (Json.sizeOf_lt_of_get? there) inner rfl
    | list role =>
      cases h with
      | idle _ => exact .same
      | list run =>
        obtain ⟨rs, rfl, length⟩ := run.exists_items
        refine .list length fun i v w there there' => ?_
        obtain ⟨_, w', s₁, s₂, same, found, inner, -⟩ := run.exists_at_item there
        cases same
        cases found.symm.trans there'
        exact ih _ (Json.sizeOf_lt_of_mem_items (List.mem_of_getElem? there)) inner rfl
    | map role =>
      cases h with
      | idle _ => exact .same
      | @map _ entries _ _ _ run =>
        obtain ⟨rs, rfl, keys⟩ := run.exists_entries
        refine .map keys fun k v w there there' => ?_
        obtain ⟨_, w', s₁, s₂, same, found, inner, -⟩ := run.exists_at_entry there
        cases same
        cases (show Dict.lookup k rs = _ from there').symm.trans found
        exact ih _ (Json.sizeOf_lt_of_get? there) inner rfl

/-- Putting something in place of the value at one place of a part keeps the part, when the new
value keeps the old one or stands for the schemas of the components. -/
theorem kept_replace {p : Part} {node : Json.Members} {k : String} {u : Json}
    (place : k ∈ p.places.map (·.1))
    (put : ∀ role v, (k, role) ∈ p.places → ¬(p = .components ∧ k = "schemas") →
      node.get? k = some v → Kept role v u) :
    Kept (.part p) (.obj node) (.obj (node.replace k u)) := by
  refine .part Dict.keys_replace (fun key hkey => ?_) fun key role v w place' out there there' => ?_
  · refine Dict.get?_replace_of_ne fun same => hkey ?_
    exact same ▸ place
  · by_cases same : k = key
    · subst same
      rw [Dict.get?_replace_self (Dict.contains_of_get? there)] at there'
      cases there'
      exact put role v place' out there
    · rw [Dict.get?_replace_of_ne same, there] at there'
      cases there'
      exact .same

/-- What is stored stays within the schemas of the components. -/
theorem kept_store (ns : List Narrowing) (d : Document) :
    Kept (.part .document) d.root (store ns d).root := by
  unfold store
  cases hs : d.schemas with
  | none => exact .same
  | some schemas =>
    obtain ⟨root⟩ := d
    obtain ⟨root, components, rfl, hc, hs⟩ := Document.schemas_eq_some_iff.mp hs
    simp only [Document.withSchemas, hc]
    refine kept_replace (by simp [Part.places]) fun role v place _ there => ?_
    cases hc.symm.trans there
    obtain rfl : role = .part .components := by simpa [Part.places] using place
    exact kept_replace (by simp [Part.places]) fun _ _ _ out _ => absurd ⟨rfl, rfl⟩ out

theorem kept_pass (d : Document) : Kept (.part .document) d.root (pass d).1.root := by
  have run := walks_walkDocument (flattenVisitor (d.schemas.getD .empty)) d.root ⟨[], 0⟩
  have walked : Kept (.part .document) d.root (rewritten d).root :=
    kept_of_walks (leaves_flattenVisitor _) run
  rw [pass_eq]
  exact walked.trans (kept_store (narrowings d) (rewritten d))

theorem kept_passed (k : Nat) (d : Document) :
    Kept (.part .document) d.root (passed k d).root := by
  induction k with
  | zero => exact .same
  | succ k ih =>
    rw [passed_succ]
    exact ih.trans (kept_pass _)

/-- Flattening keeps what is outside of schemas and components. -/
theorem kept_flattenAll (d : Document) : Kept (.part .document) d.root (flattenAll d).root := by
  rw [flattenAll, passes_eq]
  exact (kept_passed maxPasses d).trans
    (kept_of_walks leaves_dropVisitor (walks_walkDocument dropVisitor _ ()))

/-! ### Components -/

/-- A schema has the discriminator of a schema that is visited in a description. -/
def Inherits (d : Document) (node : Json.Members) : Prop :=
  ∀ v, node.get? "discriminator" = some v →
    ∃ m ∈ visited d.root, m.get? "discriminator" = some v

theorem portable_inherits (d : Document) : Portable (Inherits d) where
  copied {n n'} _ discriminator _ h v there := by
    rcases discriminator with none | same
    · rw [none] at there
      cases there
    · exact h v (same.symm.trans there)
  plain none _ v there := by
    rw [none] at there
    cases there

/-- Some mapping of a schema that is visited leads to a component of this name. -/
def Targeted (d : Document) (name : String) : Prop :=
  ∃ n ∈ visited d.root, ∃ property mapping, IsChoice n property mapping ∧
    ∃ e ∈ mapping.entries, ∃ reference, e.2 = .str reference ∧
      Document.simpleName reference = name

/-- Passes bring no new mappings. -/
theorem Targeted.of_passed {d : Document} (distinct : d.root.Distinct) {name : String} {k : Nat}
    (h : Targeted (passed k d) name) : Targeted d name := by
  obtain ⟨n, hn, property, mapping, choice, leads⟩ := h
  -- What a pass rewrites has no discriminator, and what it copies has the one it had.
  have before : Throughout (Inherits d) (.part .document) d.root :=
    fun m hm v there => ⟨m, mem_visited_iff.mpr hm, there⟩
  have inherits := throughout_passed (portable_inherits d) distinct before
    (fun k node property mapping visit _ choice v there => by
      have keys := ((distinct_passed distinct k).of_within visit.within).keys
      rw [(isOneOf_flatten keys choice).discriminator] at there
      cases there) k n (mem_visited_iff.mp hn)
  obtain ⟨v, there, names⟩ := choice.discriminator
  obtain ⟨m, hm, there⟩ := inherits v there
  exact ⟨m, hm, property, mapping, ⟨(mem_visited_iff.mp hm).own, v, there, names⟩, leads⟩

section

variable {d : Document} {name : String} {v : Json}

/-- A component below which no discriminator is visited stays in every pass, when no mapping leads
to it or it has no `allOf`. -/
theorem component_passed (distinct : d.root.Distinct)
    (known : d.schemas.bind (·.get? name) = some v) (calm : Throughout IsOpen .schema v)
    (aside : ¬Targeted d name ∨ v.get? "allOf" = none) (k : Nat) :
    (passed k d).schemas.bind (·.get? name) = some v := by
  induction k with
  | zero => exact known
  | succ k ih =>
    obtain ⟨schemas, hs, found⟩ := Option.bind_eq_some_iff.mp ih
    -- The walk leaves the component, so only storing could change it.
    obtain ⟨after, u, s, s', hs', run, stored⟩ := exists_component_pass hs found
    obtain rfl := run.eq_of_throughout (leaves_flattenVisitor schemas) calm
    have nothing : latest? (narrowings (passed k d)) name = none := by
      rw [Option.eq_none_iff_forall_ne_some]
      intro results asked
      -- Branches are asked for by a mapping entry, for a component with an `allOf`.
      obtain ⟨node, property, mapping, visit, choice, e, mem, b, made⟩ :=
        asked_of_mem_narrowings (mem_of_latest? asked)
      rw [hs] at made
      obtain ⟨reference, schema, parts, text, rfl, there, -, whole, -⟩ := variant?_asks made
      rcases aside with untargeted | plain
      · apply untargeted
        exact .of_passed distinct ⟨node, mem_visited_iff.mpr visit, property, mapping, choice,
          e, mem, reference, text, rfl⟩
      · cases there.symm.trans found
        rw [show schema.get? "allOf" = none from plain] at whole
        cases whole
    rw [nothing, withAllOf_none] at stored
    rw [passed_succ, hs', Option.bind_some]
    exact stored

/-- The walk that drops discriminators leaves such a component as well. -/
theorem component_dropped (known : d.schemas.bind (·.get? name) = some v)
    (calm : Throughout IsOpen .schema v) :
    (dropped d).schemas.bind (·.get? name) = some v := by
  obtain ⟨schemas, hs, found⟩ := Option.bind_eq_some_iff.mp known
  obtain ⟨u, s, s', run, -, there⟩ := (walks_walkDocument dropVisitor d.root ()).along
    leaves_dropVisitor (route_component_iff.mpr ⟨schemas, hs, found⟩)
  have there : Route IsOpen (.part .document) (dropped d).root ["components", "schemas", name]
      .schema u := there
  rw [run.eq_of_throughout leaves_dropVisitor calm] at there
  obtain ⟨after, hs', found'⟩ := route_component_iff.mp there
  rw [hs', Option.bind_some, found']

end

/-- Flattening leaves everything as it is that is neither a schema that is visited nor one of the
components, and every schema outside the components below which no discriminator is visited. A
component below which none is visited stays as well, unless it has an `allOf` and some mapping leads
to its name. -/
theorem flattenAll_frame {d : Document} (distinct : d.root.Distinct) :
    Kept (.part .document) d.root (flattenAll d).root ∧
      ∀ name v, d.schemas.bind (·.get? name) = some v → Throughout IsOpen .schema v →
        (¬Targeted d name ∨ v.get? "allOf" = none) →
          (flattenAll d).schemas.bind (·.get? name) = some v := by
  refine ⟨kept_flattenAll d, fun name v known calm aside => ?_⟩
  rw [flattenAll, passes_eq]
  exact component_dropped (component_passed distinct known calm aside maxPasses) calm

namespace Sample

theorem throughout_kinded : Throughout IsOpen .schema kinded := by
  have each : ∀ n, (Json.obj n).Within kinded → n.get? "discriminator" = none := by
    simp [kinded, Json.object, Json.within_obj_iff, Json.within_str_iff, Dict.get?, Dict.lookup]
  exact fun n hn => Dict.contains_eq_false_iff.mpr (each n hn.within)

end Sample

open Sample in
/-- The statement at the pets, where a mapping leads to the cat, which has no `allOf`. -/
theorem flattenAll_frame_pets :
    (pets []).root.Distinct ∧ Kept (.part .document) (pets []).root (flattenAll (pets [])).root ∧
      Throughout IsOpen .schema kinded ∧ kinded.get? "allOf" = none ∧
      (flattenAll (pets [])).schemas.bind (·.get? "Cat") = some kinded := by
  have distinct : (pets []).root.Distinct := distinct_pets [] (by simp)
  obtain ⟨kept, components⟩ := flattenAll_frame distinct
  exact ⟨distinct, kept, throughout_kinded, rfl,
    components "Cat" kinded rfl throughout_kinded (Or.inr rfl)⟩

end ToolGateway.Schema.Discriminator
