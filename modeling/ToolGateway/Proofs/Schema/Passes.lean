import Mathlib.Logic.Function.Iterate
import ToolGateway.Proofs.Schema.Branches

/-!
# One pass after another

Flattening is a number of passes and then the walk that drops what is left (`passes_eq`). Both are
walks that leave open schemas, with narrowings stored in between. A property of schemas that such a
walk does not take away, and another `allOf` does not either, lasts (`Lasting`): where it holds at a
place after some pass, it holds there in the end (`Lasting.flattenAll`). Such are that a schema has
no properties, that it declares one, or that it admits one value of it only.
-/

namespace ToolGateway.Schema

variable {σ : Type}

theorem properties_mem_places : ("properties", Role.map .schema) ∈ places := by
  simp [places, mapKeywords]

theorem oneOf_mem_places : ("oneOf", Role.list .schema) ∈ places := by
  simp [places, listKeywords]

/-! ### What comes of a schema that a visitor leaves -/

/-- What a walk makes of a schema: the schema itself, or what a walk over it ends with. -/
def Becomes (visit : Visitor σ) (v w : Json) : Prop :=
  w = v ∨ ∃ s s', Walks visit (.value .schema v) s w s'

variable {visit : Visitor σ} {node : Json.Members} {s s' : σ} {r : Json}

/-- A walk over a map of schemas keeps its keys. -/
theorem Walks.exists_becomes {props : Json.Members}
    (h : Walks visit (.value (.map .schema) (.obj props)) s r s') :
    ∃ props', r = .obj props' ∧ ∀ name v, props.get? name = some v →
      ∃ w, props'.get? name = some w ∧ Becomes visit v w := by
  cases h with
  | idle _ => exact ⟨props, rfl, fun _ v hv => ⟨v, hv, Or.inl rfl⟩⟩
  | map run =>
    obtain ⟨results, rfl, -⟩ := run.exists_entries
    refine ⟨⟨results⟩, rfl, fun name v hv => ?_⟩
    obtain ⟨_, w, s₁, s₂, same, found, inner, -⟩ := run.exists_at_entry hv
    cases same
    exact ⟨w, found, Or.inr ⟨s₁, s₂, inner⟩⟩

/-- A reference is not walked over. -/
theorem Walks.eq_of_ref (h : Walks visit (.value .schema (.obj node)) s r s')
    (ref : node.contains "$ref" = true) : r = .obj node := by
  cases h with
  | idle _ => rfl
  | skip own _ | descend own _ _ =>
    rw [ref] at own
    cases own

end ToolGateway.Schema

namespace ToolGateway.Schema.Discriminator

variable {node : Json.Members} {property value : String}

/-! ### Passes one after another -/

/-- A description after a number of passes. -/
def passed (k : Nat) (d : Document) : Document := Nat.iterate (fun d => (pass d).1) k d

theorem passed_succ (k : Nat) (d : Document) : passed (k + 1) d = (pass (passed k d)).1 :=
  Function.iterate_succ_apply' _ _ _

theorem distinct_passed {d : Document} (h : d.root.Distinct) (k : Nat) :
    (passed k d).root.Distinct := by
  induction k with
  | zero => exact h
  | succ k ih =>
    rw [passed_succ]
    exact distinct_pass ih

/-- A description after the walk that drops discriminators. -/
def dropped (d : Document) : Document := ⟨(walkDocument dropVisitor d.root ()).1⟩

theorem dropVisitor_of_isOpen (h : IsOpen node) (s : Unit) :
    dropVisitor node s = (.descend node, s) := by
  rw [dropVisitor, Dict.swapErase_of_contains_eq_false h]

theorem dropped_of_clean {d : Document} (h : Clean d.root) : dropped d = d := by
  have walked := (walks_walkDocument dropVisitor d.root ()).unmoved trivial
    fun n hn s => dropVisitor_of_isOpen (h n (mem_visited_iff.mpr hn)) s
  exact congrArg Document.mk walked.1

/-- That the passes stop where nothing is left to flatten makes no difference to the result. -/
theorem passes_eq (n : Nat) (d : Document) : passes n d = dropped (passed n d) := by
  induction n generalizing d with
  | zero => rfl
  | succ n ih =>
    rw [passes]
    dsimp only
    split
    · next none =>
      have clean := clean_of_pass none
      have still : passed (n + 1) d = d :=
        Function.iterate_fixed (congrArg Prod.fst (pass_of_clean clean)) _
      rw [still, dropped_of_clean clean, pass_of_clean clean]
    · exact ih (pass d).1

/-! ### What lasts through walks and passes -/

theorem leaves_dropVisitor : Leaves dropVisitor IsOpen where
  still _ hn s := dropVisitor_of_isOpen hn s
  keeps _ _ w place hn := hn.replace w place

/-- A property of schemas lasts when no walk that leaves open schemas takes it away, nor another
`allOf`. -/
structure Lasting (p : Json.Members → Prop) : Prop where
  walked : ∀ {σ : Type} {visit : Visitor σ} {node : Json.Members} {s s' : σ} {r : Json},
    Leaves visit IsOpen → p node → Walks visit (.value .schema (.obj node)) s r s' →
      ∃ m, r = .obj m ∧ p m
  stored : ∀ {node node' : Json.Members}, Alike node node' → p node → p node'

/-- A schema that no walk rewrites: a reference, or one without a discriminator. -/
def Rests (node : Json.Members) : Prop := node.contains "$ref" = true ∨ IsOpen node

/-- A schema that no walk rewrites and that has no properties of its own. -/
def Bare (node : Json.Members) : Prop := Rests node ∧ node.get? "properties" = none

/-- A schema that no walk rewrites and that declares a property. -/
def Declaring (property : String) (node : Json.Members) : Prop :=
  Rests node ∧ ∃ props v, node.get? "properties" = some (.obj props) ∧
    props.get? property = some v

/-- A schema that no walk rewrites and that declares a property with one value only. -/
def Fixes (property value : String) (node : Json.Members) : Prop :=
  Rests node ∧ ∃ props, node.get? "properties" = some (.obj props) ∧
    props.get? property = some (constant value)

/-- An open schema that has `n` branches, of which the one at an index has a property. -/
structure Offers (n i : Nat) (p : Json.Members → Prop) (node : Json.Members) : Prop where
  own : node.contains "$ref" = false
  through : IsOpen node
  branch : ∃ branches b, node.get? "oneOf" = some (.arr branches) ∧ branches.length = n ∧
    branches[i]? = some (.obj b) ∧ p b

section

variable {σ : Type} {visit : Visitor σ} {s s' : σ} {r : Json}

theorem Rests.of_alike {node' : Json.Members} (h : Rests node) (alike : Alike node node') :
    Rests node' := by
  rcases h with ref | through
  · exact Or.inl ((alike.contains (by decide)).trans ref)
  · exact Or.inr ((alike.contains (by decide)).trans through)

/-- A walk leaves a schema that rests as it is, or goes over its places. -/
theorem Rests.walked (h : Rests node) (leaves : Leaves visit IsOpen)
    (run : Walks visit (.value .schema (.obj node)) s r s') :
    ∃ m, r = .obj m ∧ Rests m ∧
      (m = node ∨ Walks visit (.places node places node) s (.obj m) s') := by
  by_cases ref : node.contains "$ref" = true
  · exact ⟨node, run.eq_of_ref ref, h, Or.inl rfl⟩
  · obtain ⟨m, rfl, -, through, run⟩ :=
      run.of_open leaves (by simpa using ref) (h.resolve_left ref)
    exact ⟨m, rfl, Or.inr through, Or.inr run⟩

/-- The properties of a schema that rests are walked over one by one. -/
theorem Rests.exists_properties (h : Rests node) (leaves : Leaves visit IsOpen)
    (run : Walks visit (.value .schema (.obj node)) s r s') {props : Json.Members}
    (there : node.get? "properties" = some (.obj props)) :
    ∃ m props', r = .obj m ∧ Rests m ∧ m.get? "properties" = some (.obj props') ∧
      ∀ name v, props.get? name = some v → ∃ w, props'.get? name = some w ∧ Becomes visit v w := by
  obtain ⟨m, rfl, rests, rfl | run⟩ := h.walked leaves run
  · exact ⟨m, props, rfl, rests, there, fun _ v hv => ⟨v, hv, Or.inl rfl⟩⟩
  · obtain ⟨_, w, _, _, same, found, inner, -⟩ := run.exists_at_place
      ⟨nodup_places, fun _ _ => rfl⟩ properties_mem_places there
    cases same
    obtain ⟨props', rfl, each⟩ := inner.exists_becomes
    exact ⟨m, props', rfl, rests, found, each⟩

/-- Below a schema that admits one value only no other one is visited. -/
theorem eq_of_visits_constant {n : Json.Members} (h : Visits .schema (constant value) n) :
    constant value = .obj n := by
  have away : ∀ k ∈ places.map (·.1), k ≠ "type" ∧ k ≠ "enum" ∧ k ≠ "default" ∧
      k ≠ "description" := by
    decide
  cases h with
  | here _ => rfl
  | under _ place there _ =>
    obtain ⟨h₁, h₂, h₃, h₄⟩ := away _ (List.mem_map_of_mem place)
    simp [Dict.get?, Dict.lookup, Ne.symm h₁, Ne.symm h₂, Ne.symm h₃, Ne.symm h₄] at there

/-- A walk leaves a schema that admits one value only as it is. -/
theorem eq_of_becomes_constant (leaves : Leaves visit IsOpen) {w : Json}
    (h : Becomes visit (constant value) w) : w = constant value := by
  rcases h with same | ⟨s, s', run⟩
  · exact same
  · refine run.eq_of_throughout leaves fun n hn => ?_
    cases eq_of_visits_constant hn
    rfl

end

theorem lasting_bare : Lasting Bare where
  walked leaves h run := by
    obtain ⟨m, rfl, rests, rfl | run⟩ := h.1.walked leaves run
    · exact ⟨m, rfl, h⟩
    · obtain ⟨_, same, bare⟩ := run.exists_obj (p := fun n => n.get? "properties" = none)
        (fun _ _ _ _ => Dict.get?_replace_of_get?_eq_none) h.2
      cases same
      exact ⟨m, rfl, rests, bare⟩
  stored alike h := ⟨h.1.of_alike alike, (alike _ (by decide)).trans h.2⟩

theorem lasting_declaring (property : String) : Lasting (Declaring property) where
  walked leaves h run := by
    obtain ⟨rests, props, v, there, declared⟩ := h
    obtain ⟨m, props', rfl, rests, found, each⟩ := rests.exists_properties leaves run there
    obtain ⟨w, hw, -⟩ := each _ v declared
    exact ⟨m, rfl, rests, props', w, found, hw⟩
  stored alike h := by
    refine ⟨h.1.of_alike alike, ?_⟩
    rw [alike _ (by decide)]
    exact h.2

theorem lasting_fixes (property value : String) : Lasting (Fixes property value) where
  walked leaves h run := by
    obtain ⟨rests, props, there, fixed⟩ := h
    obtain ⟨m, props', rfl, rests, found, each⟩ := rests.exists_properties leaves run there
    obtain ⟨w, hw, becomes⟩ := each _ _ fixed
    rw [eq_of_becomes_constant leaves becomes] at hw
    exact ⟨m, rfl, rests, props', found, hw⟩
  stored alike h := by
    refine ⟨h.1.of_alike alike, ?_⟩
    rw [alike _ (by decide)]
    exact h.2

/-- What lasts in a branch lasts in the schema that offers it. -/
theorem Lasting.offers {p : Json.Members → Prop} (h : Lasting p) (n i : Nat) :
    Lasting (Offers n i p) where
  walked leaves offers run := by
    obtain ⟨own, through, branches, b, there, length, at_, hb⟩ := offers
    obtain ⟨m, rfl, own, through, run⟩ := run.of_open leaves own through
    obtain ⟨_, w, _, _, same, found, inner, -⟩ := run.exists_at_place
      ⟨nodup_places, fun _ _ => rfl⟩ oneOf_mem_places there
    cases same
    refine ⟨m, rfl, own, through, ?_⟩
    cases inner with
    | idle _ => exact ⟨branches, b, found, length, at_, hb⟩
    | list inner =>
      obtain ⟨results, rfl, same⟩ := inner.exists_items
      obtain ⟨_, v, _, _, here, at_, run, -⟩ := inner.exists_at_item at_
      cases here
      obtain ⟨b', rfl, hb⟩ := h.walked leaves hb run
      exact ⟨results, b', found, same.trans length, at_, hb⟩
  stored alike offers := by
    obtain ⟨own, through, offers⟩ := offers
    refine ⟨(alike.contains (by decide)).trans own, (alike.contains (by decide)).trans through, ?_⟩
    rw [alike _ (by decide)]
    exact offers

section

variable {p : Json.Members → Prop} {d : Document} {steps : List String}

/-- A pass leaves at its place what lasts. -/
theorem Lasting.pass (h : Lasting p)
    (route : Route IsOpen (.part .document) d.root steps .schema (.obj node)) (hp : p node)
    (spared : Spared (narrowings d) steps) :
    ∃ m, Route IsOpen (.part .document) (pass d).1.root steps .schema (.obj m) ∧ p m := by
  obtain ⟨u, s, s', run, there⟩ := exists_route_rewritten route
  obtain ⟨m, rfl, hm⟩ := h.walked (leaves_flattenVisitor _) hp run
  obtain ⟨m', alike, there⟩ := exists_route_store there spared
  rw [pass_eq]
  exact ⟨m', there, h.stored alike hm⟩

/-- So do any number of passes. -/
theorem Lasting.passed (h : Lasting p) {k n : Nat} (le : k ≤ n)
    (route : Route IsOpen (.part .document) (passed k d).root steps .schema (.obj node))
    (hp : p node) (spared : ∀ j, k ≤ j → j < n → Spared (narrowings (passed j d)) steps) :
    ∃ m, Route IsOpen (.part .document) (passed n d).root steps .schema (.obj m) ∧ p m := by
  induction le with
  | refl => exact ⟨node, route, hp⟩
  | @step n le ih =>
    obtain ⟨m, there, hm⟩ := ih fun j hk hn => spared j hk (Nat.lt_succ_of_lt hn)
    rw [passed_succ]
    exact h.pass there hm (spared n le (Nat.lt_succ_self n))

/-- What lasts is found at its place in the end. -/
theorem Lasting.flattenAll (h : Lasting p) {k : Nat} (le : k ≤ maxPasses)
    (route : Route IsOpen (.part .document) (Discriminator.passed k d).root steps .schema
      (.obj node)) (hp : p node)
    (spared : ∀ j, k ≤ j → j < maxPasses →
      Spared (narrowings (Discriminator.passed j d)) steps) :
    ∃ m, Route IsOpen (.part .document) (Discriminator.flattenAll d).root steps .schema (.obj m) ∧
      p m := by
  obtain ⟨m, there, hm⟩ := h.passed le route hp spared
  obtain ⟨u, s, s', run, -, there⟩ :=
    (walks_walkDocument dropVisitor (Discriminator.passed maxPasses d).root ()).along
      leaves_dropVisitor there
  obtain ⟨m', rfl, hm⟩ := h.walked leaves_dropVisitor hm run
  refine ⟨m', ?_, hm⟩
  rw [Discriminator.flattenAll, passes_eq]
  exact there

end

end ToolGateway.Schema.Discriminator
