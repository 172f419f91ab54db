import ToolGateway.Proofs.Schema.Visited

/-!
# Routes

A route leads from a value in its role down to another one, along the steps of a pointer. The
schemas on the way are no references, and the walk goes on below them. Where a visitor leaves such
schemas as they are, a walk leaves the route: the same steps lead in the result to what came of the
value at the end (`Walks.along`). So what a walk does to one place of a description can be told
without the rest.
-/

namespace ToolGateway.Schema

variable {σ : Type}

/-- The steps lead from a value in a role to another one. No schema on the way, the last value
apart, is a reference, and all of them are open. -/
inductive Route (isOpen : Json.Members → Prop) : Role → Json → List String → Role → Json → Prop
  | here {role : Role} {v : Json} : Route isOpen role v [] role v
  | under {node : Json.Members} {k : String} {role goal : Role} {v w : Json} {steps : List String}
      (own : node.contains "$ref" = false) (through : isOpen node) (place : (k, role) ∈ places)
      (there : node.get? k = some v) (rest : Route isOpen role v steps goal w) :
      Route isOpen .schema (.obj node) (k :: steps) goal w
  | part {p : Part} {node : Json.Members} {k : String} {role goal : Role} {v w : Json}
      {steps : List String} (place : (k, role) ∈ p.places) (there : node.get? k = some v)
      (rest : Route isOpen role v steps goal w) :
      Route isOpen (.part p) (.obj node) (k :: steps) goal w
  | one {goal : Role} {v w : Json} {steps : List String} (flat : ∀ items, v ≠ .arr items)
      (rest : Route isOpen .schema v steps goal w) : Route isOpen .subschema v steps goal w
  | several {goal : Role} {items : List Json} {v w : Json} {step : String} {i : Nat}
      {steps : List String} (index : Pointer.index? step = some i) (there : items[i]? = some v)
      (rest : Route isOpen .schema v steps goal w) :
      Route isOpen .subschema (.arr items) (step :: steps) goal w
  | item {role goal : Role} {items : List Json} {v w : Json} {step : String} {i : Nat}
      {steps : List String} (index : Pointer.index? step = some i) (there : items[i]? = some v)
      (rest : Route isOpen role v steps goal w) :
      Route isOpen (.list role) (.arr items) (step :: steps) goal w
  | entry {role goal : Role} {entries : List (String × Json)} {k : String} {v w : Json}
      {steps : List String} (there : Dict.lookup k entries = some v)
      (rest : Route isOpen role v steps goal w) :
      Route isOpen (.map role) (.obj ⟨entries⟩) (k :: steps) goal w

section

variable {isOpen : Json.Members → Prop} {role goal : Role} {v w : Json} {steps : List String}

/-- The steps of a route are those of a pointer. -/
theorem Route.follow (h : Route isOpen role v steps goal w) :
    Pointer.follow v steps = some w := by
  induction h with
  | here => rfl
  | under _ _ _ there _ ih | part _ there _ ih =>
    rw [Pointer.follow, List.foldlM_cons]
    show Option.bind (Dict.get? _ _) _ = _
    rw [there]
    exact ih
  | one _ _ ih => exact ih
  | several index there _ ih | item index there _ ih =>
    rw [Pointer.follow, List.foldlM_cons, Pointer.child?, index]
    show Option.bind _ _ = _
    rw [Option.bind_some, there]
    exact ih
  | entry there _ ih =>
    rw [Pointer.follow, List.foldlM_cons]
    show Option.bind (Dict.lookup _ _) _ = _
    rw [there]
    exact ih

/-- What stands at the end of a route repeats no key where its start does not. -/
theorem Route.nodup_keys {node : Json.Members} (h : Route isOpen role v steps goal (.obj node))
    (distinct : v.Distinct) : node.keys.Nodup :=
  (distinct.of_within (Pointer.within_of_follow h.follow)).keys

/-- A route from a schema to an object starts at an object. -/
theorem Route.exists_obj {node : Json.Members}
    (h : Route isOpen .schema v steps .schema (.obj node)) : ∃ m, v = .obj m := by
  cases h with
  | here => exact ⟨node, rfl⟩
  | under _ _ _ _ _ => exact ⟨_, rfl⟩

/-- A route goes on where another one ends. -/
theorem Route.append (h : Route isOpen role v steps goal w) {last : Role} {u : Json}
    {others : List String} (rest : Route isOpen goal w others last u) :
    Route isOpen role v (steps ++ others) last u := by
  induction h with
  | here => exact rest
  | under own through place there _ ih => exact .under own through place there (ih rest)
  | part place there _ ih => exact .part place there (ih rest)
  | one flat _ ih => exact .one flat (ih rest)
  | several index there _ ih => exact .several index there (ih rest)
  | item index there _ ih => exact .item index there (ih rest)
  | entry there _ ih => exact .entry there (ih rest)

/-- What is visited at the end of a route is visited from its start. -/
theorem Route.visits (h : Route isOpen role v steps goal w) {n : Json.Members}
    (end_ : Visits goal w n) : Visits role v n := by
  induction h with
  | here => exact end_
  | under own _ place there _ ih => exact .under own place there (ih end_)
  | part place there _ ih => exact .part place there (ih end_)
  | one _ _ ih => exact .one (ih end_)
  | several _ there _ ih => exact .several (List.mem_of_getElem? there) (ih end_)
  | item _ there _ ih => exact .item (List.mem_of_getElem? there) (ih end_)
  | entry there _ ih => exact .entry (Dict.mem_of_lookup there) (ih end_)

end

/-! ### Walks at one place -/

namespace Walks

variable {visit : Visitor σ} {role : Role} {v r : Json} {s s' : σ}

/-- What stands at a place of a node afterwards is what came of the value there, and what is shown
later only adds to the state. -/
theorem exists_at_place {node out : Json.Members} {ps : List (String × Role)} {k : String}
    (h : Walks visit (.places node ps out) s r s') (ready : (Ground.places node ps out).Ready)
    (place : (k, role) ∈ ps) (there : node.get? k = some v) :
    ∃ m w s₁ s₂, r = .obj m ∧ m.get? k = some w ∧ Walks visit (.value role v) s₁ w s₂ ∧
      Leads visit s₂ s' := by
  induction ps generalizing out s with
  | nil => cases place
  | cons p ps ih =>
    cases h with
    | @passed _ _ _ _ _ _ _ _ none rest =>
      rcases List.mem_cons.mp place with here | place
      · cases here
        obtain ⟨m, rfl, -⟩ := rest.exists_obj_get?
        exact ⟨m, v, s, s, rfl, (rest.get?_of_passed ready).trans there, .idle (none v there),
          rest.leads⟩
      · exact ih rest ready.rest place
    | @place _ _ _ _ _ u w _ _ s₁ _ found run rest =>
      rcases List.mem_cons.mp place with here | place
      · cases here
        cases found.symm.trans there
        obtain ⟨m, rfl, -⟩ := rest.exists_obj_get?
        exact ⟨m, w, s, s₁, rfl, rest.get?_of_place ready there, run, rest.leads⟩
      · exact ih rest (ready.replace w) place

theorem exists_at_item {items : List Json} {i : Nat} (h : Walks visit (.items role items) s r s')
    (there : items[i]? = some v) :
    ∃ results w s₁ s₂, r = .arr results ∧ results[i]? = some w ∧
      Walks visit (.value role v) s₁ w s₂ ∧ Leads visit s₂ s' := by
  induction items generalizing i s r with
  | nil => simp at there
  | cons u items ih =>
    cases h with
    | item run rest =>
      cases i with
      | zero =>
        cases there
        exact ⟨_, _, _, _, rfl, rfl, run, rest.leads⟩
      | succ i =>
        obtain ⟨results, w, s₁, s₂, same, found, run⟩ := ih rest there
        cases same
        exact ⟨_, w, s₁, s₂, rfl, found, run⟩

theorem exists_at_entry {entries : List (String × Json)} {k : String}
    (h : Walks visit (.entries role entries) s r s') (there : Dict.lookup k entries = some v) :
    ∃ results w s₁ s₂, r = .obj ⟨results⟩ ∧ Dict.lookup k results = some w ∧
      Walks visit (.value role v) s₁ w s₂ ∧ Leads visit s₂ s' := by
  induction entries generalizing s r with
  | nil => cases there
  | cons e entries ih =>
    cases h with
    | @entry _ key _ _ _ _ _ _ _ run rest =>
      rw [Dict.lookup] at there
      split at there
      · next same =>
        cases there
        exact ⟨_, _, _, _, rfl, if_pos same, run, rest.leads⟩
      · next other =>
        obtain ⟨results, w, s₁, s₂, same, found, run⟩ := ih rest there
        cases same
        exact ⟨_, w, s₁, s₂, rfl, (if_neg other).trans found, run⟩

end Walks

/-! ### Walks along a route -/

section

/-- A visitor leaves open schemas as they are and goes on below them, and what is put at the places
of a schema does not close it. -/
structure Leaves (visit : Visitor σ) (isOpen : Json.Members → Prop) : Prop where
  still : ∀ n, isOpen n → ∀ s, visit n s = (.descend n, s)
  keeps : ∀ n k w, k ∈ places.map (·.1) → isOpen n → isOpen (n.replace k w)

variable {visit : Visitor σ} {isOpen : Json.Members → Prop} {role goal : Role} {v w r : Json}
  {s s' : σ} {steps : List String}

/-- A walk over an open schema goes over its places and leaves it open. -/
theorem Walks.of_open {node : Json.Members} (leaves : Leaves visit isOpen)
    (h : Walks visit (.value .schema (.obj node)) s r s') (own : node.contains "$ref" = false)
    (through : isOpen node) :
    ∃ m, r = .obj m ∧ m.contains "$ref" = false ∧ isOpen m ∧
      Walks visit (.places node places node) s (.obj m) s' := by
  cases h with
  | idle none => exact absurd (.here own) (none node)
  | skip _ met =>
    rw [leaves.still node through] at met
    cases met
  | descend _ met run =>
    rw [leaves.still node through] at met
    cases met
    obtain ⟨m, rfl, ownM, throughM⟩ := run.exists_obj
      (p := fun n => n.contains "$ref" = false ∧ isOpen n) (fun n k w hk hn => by
        refine ⟨?_, leaves.keeps n k w hk hn.2⟩
        rw [Dict.contains, Dict.get?_replace_of_ne (ne_of_mem_places k hk).1]
        exact hn.1) ⟨own, through⟩
    exact ⟨m, rfl, ownM, throughM, run⟩

/-- A walk leaves a route, and what stands at its end is what came of the value there. What is shown
later only adds to the state. -/
theorem Walks.along (leaves : Leaves visit isOpen) (h : Walks visit (.value role v) s r s')
    (route : Route isOpen role v steps goal w) :
    ∃ u s₁ s₂, Walks visit (.value goal w) s₁ u s₂ ∧ Leads visit s₂ s' ∧
      Route isOpen role r steps goal u := by
  induction route generalizing s r s' with
  | here => exact ⟨r, s, s', h, ⟨[], rfl⟩, .here⟩
  | @under node k role goal v w steps own through place there rest ih =>
    obtain ⟨m, rfl, ownM, throughM, run⟩ := h.of_open leaves own through
    obtain ⟨_, v', _, _, same, found, inner, later⟩ :=
      run.exists_at_place ⟨nodup_places, fun _ _ => rfl⟩ place there
    cases same
    obtain ⟨u, s₁, s₂, last, leads, route⟩ := ih inner
    exact ⟨u, s₁, s₂, last, leads.trans later, .under ownM throughM place found route⟩
  | @part p node k role goal v w steps place there rest ih =>
    cases h with
    | idle none =>
      -- Nothing is visited at the end either, where the walk is idle from the start.
      refine ⟨w, s, s, .idle fun n hn => none n ?_, ⟨[], rfl⟩, .part place there rest⟩
      exact .part place there (rest.visits hn)
    | part run =>
      obtain ⟨m, v', _, _, rfl, found, inner, later⟩ :=
        run.exists_at_place ⟨Part.nodup_places p, fun _ _ => rfl⟩ place there
      obtain ⟨u, s₁, s₂, last, leads, route⟩ := ih inner
      exact ⟨u, s₁, s₂, last, leads.trans later, .part place found route⟩
  | @one goal v w steps flat rest ih =>
    cases h with
    | idle none =>
      exact ⟨w, s, s, .idle fun n hn => none n (.one (rest.visits hn)), ⟨[], rfl⟩, .one flat rest⟩
    | one _ run =>
      obtain ⟨u, s₁, s₂, last, leads, route⟩ := ih run
      exact ⟨u, s₁, s₂, last, leads, .one (run.ne_arr flat) route⟩
    | several run => exact absurd rfl (flat _)
  | @several goal items v w step i steps index there rest ih =>
    cases h with
    | idle none =>
      refine ⟨w, s, s, .idle fun n hn => none n ?_, ⟨[], rfl⟩, .several index there rest⟩
      exact .several (List.mem_of_getElem? there) (rest.visits hn)
    | one flat _ => exact absurd rfl (flat _)
    | several run =>
      obtain ⟨results, v', _, _, rfl, found, inner, later⟩ := run.exists_at_item there
      obtain ⟨u, s₁, s₂, last, leads, route⟩ := ih inner
      exact ⟨u, s₁, s₂, last, leads.trans later, .several index found route⟩
  | @item role goal items v w step i steps index there rest ih =>
    cases h with
    | idle none =>
      refine ⟨w, s, s, .idle fun n hn => none n ?_, ⟨[], rfl⟩, .item index there rest⟩
      exact .item (List.mem_of_getElem? there) (rest.visits hn)
    | list run =>
      obtain ⟨results, v', _, _, rfl, found, inner, later⟩ := run.exists_at_item there
      obtain ⟨u, s₁, s₂, last, leads, route⟩ := ih inner
      exact ⟨u, s₁, s₂, last, leads.trans later, .item index found route⟩
  | @entry role goal entries k v w steps there rest ih =>
    cases h with
    | idle none =>
      refine ⟨w, s, s, .idle fun n hn => none n ?_, ⟨[], rfl⟩, .entry there rest⟩
      exact .entry (Dict.mem_of_lookup there) (rest.visits hn)
    | map run =>
      obtain ⟨results, v', _, _, rfl, found, inner, later⟩ := run.exists_at_entry there
      obtain ⟨u, s₁, s₂, last, leads, route⟩ := ih inner
      exact ⟨u, s₁, s₂, last, leads.trans later, .entry found route⟩

/-- A walk changes nothing where every schema is open. -/
theorem Walks.eq_of_throughout (leaves : Leaves visit isOpen)
    (h : Walks visit (.value role v) s r s') (calm : Throughout isOpen role v) : r = v :=
  (h.unmoved trivial fun n hn s => leaves.still n (calm n hn) s).1

/-- What stands under a key of a node stays, when every schema below is open or the walk does not go
there. -/
theorem Walks.get?_of_throughout (leaves : Leaves visit isOpen) {node m : Json.Members}
    {ps : List (String × Role)} (h : Walks visit (.places node ps node) s (.obj m) s')
    (nodup : (ps.map (·.1)).Nodup) {key : String}
    (calm : ∀ role v, (key, role) ∈ ps → node.get? key = some v → Throughout isOpen role v) :
    m.get? key = node.get? key := by
  by_cases hkey : key ∈ ps.map (·.1)
  · cases there : node.get? key with
    | none =>
      obtain ⟨_, same, none⟩ := h.exists_obj (p := fun n => n.get? key = none)
        (fun _ _ _ _ => Dict.get?_replace_of_get?_eq_none) there
      cases same
      exact none
    | some v =>
      obtain ⟨⟨_, role⟩, place, rfl⟩ := List.mem_map.mp hkey
      obtain ⟨_, w, _, _, same, found, inner, -⟩ :=
        h.exists_at_place ⟨nodup, fun _ _ => rfl⟩ place there
      cases same
      rw [found, inner.eq_of_throughout leaves (calm role v place there)]
  · obtain ⟨_, same, others⟩ := h.exists_obj_get?
    cases same
    exact others key hkey

/-- A walk makes an object of an object. -/
theorem Walks.exists_members {node : Json.Members}
    (h : Walks visit (.value .schema (.obj node)) s r s') : ∃ m, r = .obj m := by
  cases h with
  | idle _ => exact ⟨node, rfl⟩
  | skip _ _ => exact ⟨_, rfl⟩
  | descend _ _ run =>
    obtain ⟨m, rfl, -⟩ := run.exists_obj_get?
    exact ⟨m, rfl⟩

end

end ToolGateway.Schema
