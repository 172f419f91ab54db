import ToolGateway.Proofs.Schema.Positions

/-!
# The calls of a visitor

A walk over a description is a series of calls (`Performs`): the visitor is given the object that
stands at a path in what was made so far and the state that the call before left, and its answer is
put there. For a visitor that leaves alone what stands at the places of a node, the series is told by
the description as it was (`Tour`): a node is met once, before the nodes below it, and these are all
the nodes at positions, but for those below a node that the visitor skips
(`Walks.exists_tour`, by induction on the walk). What stands apart from the nodes that are met is
not changed (`walkDocument_calls`).
-/

namespace ToolGateway.Schema

open Json (Step Path)

variable {σ : Type}

/-! ### Series of calls -/

/-- A call of a visitor: the node at a path, and the state. -/
structure Call (σ : Type) where
  path : Path
  node : Json.Members
  state : σ

/-- The node that the visitor answers with. -/
def Call.answer (visit : Visitor σ) (c : Call σ) : Json.Members := (visit c.node c.state).1.node

/-- The visitor skips what is below the node. -/
def Call.Skips (visit : Visitor σ) (c : Call σ) : Prop :=
  ∃ out, (visit c.node c.state).1 = .skip out

/-- The call, seen from one step above. -/
def Call.under (step : Step) (c : Call σ) : Call σ := { c with path := step :: c.path }

/-- A series of calls makes one value of another one, and one state of another one. Each call is of
the object that stands at its path by then, and its answer is put there. -/
inductive Performs (visit : Visitor σ) : Json → σ → List (Call σ) → Json → σ → Prop
  | done {v : Json} {s : σ} : Performs visit v s [] v s
  | call {v w : Json} {s' : σ} {c : Call σ} {calls : List (Call σ)}
      (there : v.at? c.path = some (.obj c.node))
      (rest : Performs visit (v.setAt c.path (.obj (c.answer visit)))
        (visit c.node c.state).2 calls w s') :
      Performs visit v c.state (c :: calls) w s'

namespace Performs

variable {visit : Visitor σ} {v u w : Json} {s s₁ s' : σ} {calls calls' : List (Call σ)}

theorem append (h : Performs visit v s calls u s₁) (h' : Performs visit u s₁ calls' w s') :
    Performs visit v s (calls ++ calls') w s' := by
  induction h with
  | done => exact h'
  | call there _ ih => exact .call there (ih h')

/-- What is done to a value is done below the step that leads to it. -/
theorem under {base : Json} {step : Step} (h : Performs visit v s calls w s')
    (there : base.down? step = some v) :
    Performs visit base s (calls.map (.under step)) (base.put step w) s' := by
  induction h generalizing base with
  | done =>
    rw [Json.put_of_down? there]
    exact .done
  | @call v w s' c calls found _ ih =>
    have below := ih (Json.down?_put_self there)
    -- What the call put below the step is overwritten by the result of the calls after it.
    rw [Json.put_put, ← Json.setAt_cons there] at below
    exact .call (c := c.under step) ((Json.at?_cons there).trans found) below

/-- A path where no call changes what is found below it keeps its outline. -/
theorem outline_at? {path : Path} (h : Performs visit v s calls w s')
    (kept : ∀ c ∈ calls, ∀ rest, path = c.path ++ rest →
      (Json.obj (c.answer visit)).at? rest = (Json.obj c.node).at? rest) :
    (w.at? path).map Json.outline = (v.at? path).map Json.outline := by
  induction h with
  | done => rfl
  | @call v w s' c calls there _ ih =>
    obtain ⟨here, others⟩ := List.forall_mem_cons.mp kept
    rw [ih others]
    by_cases below : c.path <+: path
    · obtain ⟨rest, rfl⟩ := below
      rw [Json.at?_setAt_of_same there (here rest rfl)]
    · exact Json.outline_at?_setAt below

/-- Where no call is at the path or below it either, the value is kept. -/
theorem at?_eq {path : Path} (h : Performs visit v s calls w s')
    (kept : ∀ c ∈ calls, ∀ rest, path = c.path ++ rest →
      (Json.obj (c.answer visit)).at? rest = (Json.obj c.node).at? rest)
    (none : ∀ c ∈ calls, ¬ path <+: c.path) : w.at? path = v.at? path := by
  induction h with
  | done => rfl
  | @call v w s' c calls there _ ih =>
    obtain ⟨here, others⟩ := List.forall_mem_cons.mp kept
    obtain ⟨apart, noneLater⟩ := List.forall_mem_cons.mp none
    rw [ih others noneLater]
    by_cases below : c.path <+: path
    · obtain ⟨rest, rfl⟩ := below
      exact Json.at?_setAt_of_same there (here rest rfl)
    · exact Json.at?_setAt_of_apart below apart

/-- Where a call was made stands what the visitor answered, as far as later calls are below it. -/
theorem outline_answer {c : Call σ} (h : Performs visit v s calls w s')
    (ordered : calls.Pairwise fun a b => ¬ b.path <+: a.path) (mem : c ∈ calls) :
    (w.at? c.path).map Json.outline = some (Json.obj (c.answer visit)).outline := by
  induction h with
  | done => cases mem
  | @call v w s' d calls there rest ih =>
    obtain ⟨later, ordered⟩ := List.pairwise_cons.mp ordered
    rcases List.mem_cons.mp mem with rfl | mem
    · have kept : ∀ b ∈ calls, ∀ rest, c.path = b.path ++ rest →
          (Json.obj (b.answer visit)).at? rest = (Json.obj b.node).at? rest := by
        intro b hb tail same
        exact absurd ⟨tail, same.symm⟩ (later b hb)
      have here : (v.setAt c.path (.obj (c.answer visit))).at? (c.path ++ []) =
          some (.obj (c.answer visit)) := Json.at?_setAt_append there
      rw [List.append_nil] at here
      rw [rest.outline_at? kept, here]
      rfl
    · exact ih ordered mem

end Performs

/-! ### Tours -/

/-- A call of the series is of this node at this path. -/
def Meets (calls : List (Call σ)) (path : Path) (n : Json.Members) : Prop :=
  ∃ c ∈ calls, c.path = path ∧ c.node = n

/-- No call of the series skips what is at the path. -/
def Clear (visit : Visitor σ) (calls : List (Call σ)) (path : Path) : Prop :=
  ∀ c ∈ calls, c.Skips visit → c.path <+: path → c.path = path

/-- A series of calls meets the nodes at some spots, each once and before those below it, apart from
those below a node that is skipped. -/
structure Tour (visit : Visitor σ) (spots : Path → Json.Members → Prop) (v : Json) (s : σ)
    (calls : List (Call σ)) (w : Json) (s' : σ) : Prop where
  performs : Performs visit v s calls w s'
  ordered : calls.Pairwise fun a b => ¬ b.path <+: a.path
  met : ∀ path n, Meets calls path n ↔ spots path n ∧ Clear visit calls path

section

variable {visit : Visitor σ} {calls calls' : List (Call σ)} {path : Path} {n : Json.Members}
  {step : Step}

theorem meets_append_iff :
    Meets (calls ++ calls') path n ↔ Meets calls path n ∨ Meets calls' path n := by
  simp only [Meets, List.mem_append, or_and_right, exists_or]

theorem meets_under_iff : Meets (calls.map (.under step)) path n ↔
    ∃ rest, path = step :: rest ∧ Meets calls rest n := by
  constructor
  · rintro ⟨_, mem, rfl, rfl⟩
    obtain ⟨c, inside, rfl⟩ := List.mem_map.mp mem
    exact ⟨c.path, rfl, c, inside, rfl, rfl⟩
  · rintro ⟨_, rfl, c, mem, rfl, rfl⟩
    exact ⟨c.under step, List.mem_map_of_mem mem, rfl, rfl⟩

theorem clear_append_iff : Clear visit (calls ++ calls') path ↔
    Clear visit calls path ∧ Clear visit calls' path :=
  List.forall_mem_append

theorem clear_under_iff :
    Clear visit (calls.map (.under step)) (step :: path) ↔ Clear visit calls path := by
  constructor
  · intro clear c mem skips above
    exact (List.cons.inj (clear (c.under step) (List.mem_map_of_mem mem) skips
      (List.cons_prefix_cons.mpr ⟨rfl, above⟩))).2
  · intro clear d mem skips above
    obtain ⟨c, inside, rfl⟩ := List.mem_map.mp mem
    exact congrArg _ (clear c inside skips (List.cons_prefix_cons.mp above).2)

/-- The calls are below other steps than this one. -/
def Apart (step : Step) (calls : List (Call σ)) : Prop :=
  ∀ c ∈ calls, ∃ other rest, c.path = other :: rest ∧ other ≠ step

/-- Calls below other steps skip nothing here. -/
theorem clear_of_apart (apart : Apart step calls) : Clear visit calls (step :: path) := by
  intro c mem _ above
  obtain ⟨other, rest, same, ne⟩ := apart c mem
  rw [same] at above
  exact absurd (List.cons_prefix_cons.mp above).1 ne

theorem apart_under {other : Step} (ne : other ≠ step) : Apart step (calls.map (.under other)) := by
  intro d mem
  obtain ⟨c, -, rfl⟩ := List.mem_map.mp mem
  exact ⟨other, c.path, rfl, ne⟩

/-- Calls below one step, and then calls below others: none comes after one below it. -/
theorem ordered_append (here : calls.Pairwise fun a b => ¬ b.path <+: a.path)
    (rest : calls'.Pairwise fun a b => ¬ b.path <+: a.path) (apart : Apart step calls') :
    List.Pairwise (fun a b : Call σ => ¬ b.path <+: a.path)
      (calls.map (.under step) ++ calls') := by
  apply List.pairwise_append.mpr
  refine ⟨List.pairwise_map.mpr (here.imp ?_), rest, ?_⟩
  · intro a b later above
    exact later (List.cons_prefix_cons.mp above).2
  · intro a ha b hb above
    obtain ⟨c, -, rfl⟩ := List.mem_map.mp ha
    obtain ⟨other, tail, same, ne⟩ := apart b hb
    rw [same] at above
    exact ne (List.cons_prefix_cons.mp above).1

end

namespace Tour

variable {visit : Visitor σ} {spots spots' : Path → Json.Members → Prop} {v w r : Json}
  {s s₁ s' : σ} {calls calls' : List (Call σ)}

theorem congr (h : Tour visit spots v s calls w s')
    (same : ∀ path n, spots' path n ↔ spots path n) : Tour visit spots' v s calls w s' where
  performs := h.performs
  ordered := h.ordered
  met path n := by rw [h.met, same]

theorem nothing (none : ∀ path n, ¬spots path n) : Tour visit spots v s [] v s where
  performs := .done
  ordered := .nil
  met path n := by
    constructor
    · rintro ⟨_, ⟨⟩, _⟩
    · rintro ⟨here, -⟩
      exact absurd here (none path n)

/-- A tour by some stops makes no calls below other steps. -/
theorem apart {step : Step} {stops : List (Step × Role)} (h : Tour visit (Under stops v) w s calls r s')
    (fresh : step ∉ stops.map (·.1)) : Apart step calls := by
  intro c mem
  obtain ⟨⟨other, _, _, tail, stopped, -, same, -⟩, -⟩ :=
    (h.met c.path c.node).mp ⟨c, mem, rfl, rfl⟩
  refine ⟨other, tail, same, ?_⟩
  rintro rfl
  exact fresh (List.mem_map_of_mem stopped)

/-- A tour below one stop, and then one by the others. -/
theorem stop {step : Step} {role : Role} {stops : List (Step × Role)} {u out : Json}
    (here : Tour visit (Position role u) u s calls w s₁)
    (rest : Tour visit (Under stops v) (out.put step w) s₁ calls' r s')
    (there : v.down? step = some u) (still : out.down? step = some u)
    (fresh : step ∉ stops.map (·.1)) :
    Tour visit (Under ((step, role) :: stops) v) out s (calls.map (.under step) ++ calls') r s' where
  performs := (here.performs.under still).append rest.performs
  ordered := ordered_append here.ordered rest.ordered (rest.apart fresh)
  met path n := by
    rw [meets_append_iff, meets_under_iff, rest.met, clear_append_iff, under_cons_iff]
    -- Calls below the stop and calls below the others are not above each other, so none of them
    -- skips anything on the other side.
    constructor
    · rintro (⟨tail, rfl, inside⟩ | ⟨later, clear⟩)
      · obtain ⟨position, clear⟩ := (here.met tail n).mp inside
        exact ⟨Or.inl ⟨u, tail, there, rfl, position⟩, clear_under_iff.mpr clear,
          clear_of_apart (rest.apart fresh)⟩
      · refine ⟨Or.inr later, ?_, clear⟩
        obtain ⟨other, _, _, tail, stopped, -, rfl, -⟩ := later
        apply clear_of_apart
        apply apart_under
        rintro rfl
        exact fresh (List.mem_map_of_mem stopped)
    · rintro ⟨⟨_, tail, there', rfl, position⟩ | later, clear, clearLater⟩
      · rw [there] at there'
        cases there'
        exact Or.inl ⟨tail, rfl, (here.met tail n).mpr ⟨position, clear_under_iff.mp clear⟩⟩
      · exact Or.inr ⟨later, clearLater⟩

/-- The case where what has been made so far is the value itself. -/
theorem stop_self {step : Step} {role : Role} {stops : List (Step × Role)} {u : Json}
    (here : Tour visit (Position role u) u s calls w s₁)
    (rest : Tour visit (Under stops (v.put step w)) (v.put step w) s₁ calls' r s')
    (there : v.down? step = some u) (fresh : step ∉ stops.map (·.1)) :
    Tour visit (Under ((step, role) :: stops) v) v s (calls.map (.under step) ++ calls') r s' := by
  refine here.stop (rest.congr fun path n => (under_congr fun stop mem => ?_).symm) there there fresh
  apply Json.down?_put_of_ne
  rintro rfl
  exact fresh (List.mem_map_of_mem mem)

/-- The visitor skips a node. -/
theorem skip {node out : Json.Members} (own : node.contains "$ref" = false)
    (met : visit node s = (.skip out, s')) :
    Tour visit (Position .schema (.obj node)) (.obj node) s [⟨[], node, s⟩] (.obj out) s' := by
  have skips : (Call.mk [] node s).Skips visit := ⟨out, by rw [met]⟩
  constructor
  · have made : Performs visit (.obj node) s [⟨[], node, s⟩] (.obj (visit node s).1.node)
        (visit node s).2 := .call (c := ⟨[], node, s⟩) rfl .done
    rw [met] at made
    exact made
  · exact List.pairwise_singleton _ _
  · intro path n
    constructor
    · rintro ⟨_, mem, rfl, rfl⟩
      cases List.mem_singleton.mp mem
      refine ⟨position_nil_iff.mpr ⟨rfl, Or.inl rfl, own⟩, fun c mem _ _ => ?_⟩
      rw [List.mem_singleton.mp mem]
    · rintro ⟨position, clear⟩
      have end_ := clear _ List.mem_cons_self skips List.nil_prefix
      cases end_
      cases (position_nil_iff.mp position).1
      exact ⟨_, List.mem_cons_self, rfl, rfl⟩

/-- The visitor goes on below a node. -/
theorem descend {node out : Json.Members} (own : node.contains "$ref" = false)
    (met : visit node s = (.descend out, s₁))
    (below : Tour visit (Under (atMembers places) (.obj node)) (.obj out) s₁ calls r s') :
    Tour visit (Position .schema (.obj node)) (.obj node) s (⟨[], node, s⟩ :: calls) r s' := by
  have deeper : ∀ c ∈ calls, ∃ step tail, c.path = step :: tail := by
    intro c mem
    obtain ⟨⟨step, _, _, tail, -, -, same, -⟩, -⟩ :=
      (below.met c.path c.node).mp ⟨c, mem, rfl, rfl⟩
    exact ⟨step, tail, same⟩
  have through : ¬(Call.mk [] node s).Skips visit := by
    rintro ⟨_, same⟩
    rw [met] at same
    cases same
  constructor
  · have rest := below.performs
    rw [show out = (visit node s).1.node by rw [met]; rfl, show s₁ = (visit node s).2 by rw [met]]
      at rest
    exact .call (c := ⟨[], node, s⟩) rfl rest
  · refine List.pairwise_cons.mpr ⟨fun c mem above => ?_, below.ordered⟩
    obtain ⟨step, tail, same⟩ := deeper c mem
    rw [same] at above
    cases List.prefix_nil.mp above
  · intro path n
    have clear : Clear visit (⟨[], node, s⟩ :: calls) path ↔ Clear visit calls path := by
      refine List.forall_mem_cons.trans (and_iff_right fun skips => ?_)
      exact absurd skips through
    have first : Meets (⟨[], node, s⟩ :: calls) path n ↔
        (path = [] ∧ n = node) ∨ Meets calls path n := by
      simp only [Meets, List.mem_cons, exists_eq_or_imp, eq_comm]
    rw [first, clear, below.met, position_schema_iff own, or_and_right]
    refine or_congr_left ⟨fun here => ⟨here, ?_⟩, fun here => here.1⟩
    obtain ⟨rfl, -⟩ := here
    intro c _ _ above
    exact List.prefix_nil.mp above

end Tour

/-! ### Walks are tours -/

/-- A visitor leaves alone what stands at the places of a node. -/
def KeepsPlaces (visit : Visitor σ) : Prop :=
  ∀ n s, (Json.obj n).Distinct → ∀ k ∈ places.map (·.1), (visit n s).1.node.get? k = n.get? k

/-- What a walk over a ground is as a series of calls. The items of a list and the entries of a map
stand behind others, which were walked over. -/
def Toured (visit : Visitor σ) : Ground → σ → Json → σ → Prop
  | .value role v, s, r, s' =>
    v.Distinct → ∃ calls, Tour visit (Position role v) v s calls r s'
  | .items role vs, s, r, s' =>
    (∀ v ∈ vs, v.Distinct) → ∀ before, ∃ rs calls, r = .arr rs ∧
      Tour visit (Under (atItems role before.length vs.length) (.arr (before ++ vs)))
        (.arr (before ++ vs)) s calls (.arr (before ++ rs)) s'
  | .entries role es, s, r, s' =>
    (∀ e ∈ es, e.2.Distinct) → ∀ before, ((before ++ es).map (·.1)).Nodup → ∃ rs calls,
      r = .obj ⟨rs⟩ ∧
        Tour visit (Under (atMembers (es.map fun e => (e.1, role))) (.obj ⟨before ++ es⟩))
          (.obj ⟨before ++ es⟩) s calls (.obj ⟨before ++ rs⟩) s'
  | .places node ps out, s, r, s' =>
    (Json.obj node).Distinct → (Ground.places node ps out).Ready →
      ∃ calls, Tour visit (Under (atMembers ps) (.obj node)) (.obj out) s calls r s'

section

variable {visit : Visitor σ} {role : Role} {s s₁ s' : σ} {r : Json}

theorem toured_item {v : Json} {vs rs : List Json} (here : Toured visit (.value role v) s r s₁)
    (rest : Toured visit (.items role vs) s₁ (.arr rs) s') :
    Toured visit (.items role (v :: vs)) s (.arr (r :: rs)) s' := by
  intro distinct before
  obtain ⟨first, others⟩ := List.forall_mem_cons.mp distinct
  obtain ⟨calls, tour⟩ := here first
  obtain ⟨_, calls', same, later⟩ := rest others (before ++ [r])
  cases same
  -- The items before this one are done, so their number is the step that leads to it.
  have there : (Json.arr (before ++ v :: vs)).down? (.item before.length) = some v := by
    show (before ++ v :: vs)[before.length]? = some v
    simp
  have put : (Json.arr (before ++ v :: vs)).put (.item before.length) r =
      .arr (before ++ r :: vs) := by
    show Json.arr ((before ++ v :: vs).set before.length r) = _
    simp
  have fresh : Step.item before.length ∉
      (atItems role (before.length + 1) vs.length).map (·.1) := by
    rw [item_mem_atItems]
    omega
  simp only [List.append_assoc, List.singleton_append, List.length_append,
    List.length_singleton] at later
  rw [← put] at later
  exact ⟨_, _, rfl, tour.stop_self later there fresh⟩

theorem toured_entry {k : String} {v : Json} {es rs : List (String × Json)}
    (here : Toured visit (.value role v) s r s₁)
    (rest : Toured visit (.entries role es) s₁ (.obj ⟨rs⟩) s') :
    Toured visit (.entries role ((k, v) :: es)) s (.obj ⟨(k, r) :: rs⟩) s' := by
  intro distinct before nodup
  obtain ⟨first, others⟩ := List.forall_mem_cons.mp distinct
  obtain ⟨calls, tour⟩ := here first
  have keys : ((before ++ [(k, r)]) ++ es).map (·.1) = (before ++ (k, v) :: es).map (·.1) := by
    simp
  obtain ⟨_, calls', same, later⟩ := rest others (before ++ [(k, r)]) (keys ▸ nodup)
  cases same
  -- No key is repeated, so the key leads to this entry and to none of those before it.
  have there : (Json.obj ⟨before ++ (k, v) :: es⟩).down? (.member k) = some v :=
    Dict.lookup_of_mem nodup (List.mem_append_right _ List.mem_cons_self)
  rw [List.map_append, List.map_cons] at nodup
  obtain ⟨-, behind, apart⟩ := List.nodup_append.mp nodup
  have put : (Json.obj ⟨before ++ (k, v) :: es⟩).put (.member k) r =
      .obj ⟨before ++ (k, r) :: es⟩ := by
    refine congrArg (fun es => Json.obj ⟨es⟩) (Dict.putAt_append_cons fun mem => ?_)
    exact apart _ mem _ List.mem_cons_self rfl
  have fresh : Step.member k ∉ (atMembers (es.map fun e => (e.1, role))).map (·.1) := by
    rw [member_mem_atMembers, List.map_map]
    exact (List.nodup_cons.mp behind).1
  simp only [List.append_assoc, List.singleton_append] at later
  rw [← put] at later
  exact ⟨_, _, rfl, tour.stop_self later there fresh⟩

theorem toured_place {node out : Json.Members} {k : String} {ps : List (String × Role)}
    {v w : Json} (there : node.get? k = some v) (here : Toured visit (.value role v) s w s₁)
    (rest : Toured visit (.places node ps (out.replace k w)) s₁ r s') :
    Toured visit (.places node ((k, role) :: ps) out) s r s' := by
  intro distinct ready
  obtain ⟨calls, tour⟩ := here (distinct.get? there)
  obtain ⟨calls', later⟩ := rest distinct (ready.replace w)
  have still : out.get? k = some v := (ready.2 _ List.mem_cons_self).trans there
  have fresh : Step.member k ∉ (atMembers ps).map (·.1) := by
    rw [member_mem_atMembers]
    exact (List.nodup_cons.mp ready.1).1
  exact ⟨_, Tour.stop (v := .obj node) tour later there still fresh⟩

end

/-- A walk of a visitor that leaves the places of a node alone is a tour. -/
theorem Walks.toured {visit : Visitor σ} {g : Ground} {s s' : σ} {r : Json}
    (h : Walks visit g s r s') (keeps : KeepsPlaces visit) : Toured visit g s r s' := by
  induction h with
  | idle none => exact fun _ => ⟨[], .nothing fun _ _ h => none _ h.visits⟩
  | skip own met => exact fun _ => ⟨_, .skip own met⟩
  | @descend node out s s₁ s' r own met _ ih =>
    intro distinct
    -- The places are walked over in the answer, which has the same values at them as the node.
    have same := keeps node s distinct
    rw [met] at same
    have ready : (Ground.places node places out).Ready :=
      ⟨nodup_places, fun p mem => same p.1 (List.mem_map_of_mem mem)⟩
    obtain ⟨calls, below⟩ := ih distinct ready
    exact ⟨_, .descend own met below⟩
  | @part p node s s' r _ ih =>
    intro distinct
    obtain ⟨calls, below⟩ := ih distinct ⟨p.nodup_places, fun _ _ => rfl⟩
    exact ⟨calls, below.congr fun _ _ => position_part_iff⟩
  | one flat _ ih =>
    intro distinct
    obtain ⟨calls, tour⟩ := ih distinct
    exact ⟨calls, tour.congr fun _ _ => position_one_iff flat⟩
  | several _ ih | list _ ih =>
    intro distinct
    obtain ⟨_, calls, rfl, tour⟩ := ih (Json.distinct_arr_iff.mp distinct) []
    exact ⟨calls, tour.congr fun _ _ => position_items_iff fun _ => rfl⟩
  | map _ ih =>
    intro distinct
    obtain ⟨nodup, each⟩ := Json.distinct_obj_iff.mp distinct
    obtain ⟨_, calls, rfl, tour⟩ := ih each [] nodup
    exact ⟨calls, tour.congr fun _ _ => position_map_iff⟩
  | noItem => exact fun _ before => ⟨[], [], rfl, .nothing fun _ _ => not_under_nil⟩
  | item _ _ ih ih' => exact toured_item ih ih'
  | noEntry => exact fun _ before _ => ⟨[], [], rfl, .nothing fun _ _ => not_under_nil⟩
  | entry _ _ ih ih' => exact toured_entry ih ih'
  | noPlace => exact fun _ _ => ⟨[], .nothing fun _ _ => not_under_nil⟩
  | @passed node out k role ps s s' r none _ ih =>
    intro distinct ready
    obtain ⟨calls, tour⟩ := ih distinct ready.rest
    refine ⟨calls, tour.congr fun path n => under_cons_iff.trans (or_iff_right ?_)⟩
    rintro ⟨u, rest, there, -, position⟩
    exact none u there n position.visits
  | place there _ _ ih ih' => exact toured_place there ih ih'

/-- A walk over a description that repeats no key is a tour of its positions. -/
theorem exists_tour {visit : Visitor σ} (keeps : KeepsPlaces visit) {root : Json}
    (distinct : root.Distinct) (s : σ) :
    ∃ calls, Tour visit (Position (.part .document) root) root s calls
      (walkDocument visit root s).1 (walkDocument visit root s).2 :=
  (walks_walkDocument visit root s).toured keeps distinct

namespace Tour

variable {visit : Visitor σ} {spots : Path → Json.Members → Prop} {v w : Json} {s s' : σ}
  {calls : List (Call σ)}

theorem nodup_paths (h : Tour visit spots v s calls w s') : (calls.map Call.path).Nodup := by
  apply List.pairwise_map.mpr
  apply h.ordered.imp
  intro a b later same
  exact later (same ▸ List.prefix_rfl)

/-- The node of a call is the one that was there at first. -/
theorem at?_of_mem {role : Role} {c : Call σ} (h : Tour visit (Position role v) v s calls w s')
    (mem : c ∈ calls) : v.at? c.path = some (.obj c.node) :=
  ((h.met c.path c.node).mp ⟨c, mem, rfl, rfl⟩).1.schema.1

end Tour

/-- What is found at a place of a node is found there in the visitor's answer. -/
theorem KeepsPlaces.at?_answer {visit : Visitor σ} (keeps : KeepsPlaces visit) {c : Call σ}
    (distinct : (Json.obj c.node).Distinct) {k : String} (place : k ∈ places.map (·.1))
    (rest : Path) : (Json.obj (c.answer visit)).at? (.member k :: rest) =
      (Json.obj c.node).at? (.member k :: rest) := by
  show (Dict.get? _ k).bind _ = (Dict.get? _ k).bind _
  rw [Call.answer, keeps c.node c.state distinct k place]

/-- A walk over a description that repeats no key, with a visitor that leaves alone what stands at
the places of a node, is a series of calls of that visitor. No two calls are at one path, and no call
comes after one below it. Calls are made of the schemas of the description as it was that are no
references, at exactly those paths where no schema on the way is a reference and no call on the way
skips what is below. What is reached from each called node on the way through one of its places keeps
its outline, and is the same value where no call is made at it or below. -/
theorem walkDocument_calls {visit : Visitor σ} (keeps : KeepsPlaces visit) {root : Json}
    (distinct : root.Distinct) (s : σ) :
    ∃ calls, Performs visit root s calls (walkDocument visit root s).1
        (walkDocument visit root s).2 ∧
      (calls.map Call.path).Nodup ∧
      (calls.Pairwise fun a b => ¬ b.path <+: a.path) ∧
      (∀ path n, (∃ c ∈ calls, c.path = path ∧ c.node = n) ↔
        SchemaAt (.part .document) root path n ∧
          (∀ above m, above <+: path → SchemaAt (.part .document) root above m →
            m.contains "$ref" = false) ∧
          ∀ c ∈ calls, c.Skips visit → c.path <+: path → c.path = path) ∧
      ∀ path, (∀ c ∈ calls, c.path <+: path →
          ∃ k ∈ places.map (·.1), ∃ rest, path = c.path ++ .member k :: rest) →
        ((walkDocument visit root s).1.at? path).map Json.outline =
            (root.at? path).map Json.outline ∧
          ((∀ c ∈ calls, ¬ path <+: c.path) →
            (walkDocument visit root s).1.at? path = root.at? path) := by
  obtain ⟨calls, tour⟩ := exists_tour keeps distinct s
  refine ⟨calls, tour.performs, tour.nodup_paths, tour.ordered, fun path n => ?_,
    fun path through => ?_⟩
  · constructor
    · intro met
      obtain ⟨⟨schema, own⟩, clear⟩ := (tour.met path n).mp met
      exact ⟨schema, own, clear⟩
    · rintro ⟨schema, own, clear⟩
      exact (tour.met path n).mpr ⟨⟨schema, own⟩, clear⟩
  · have kept : ∀ c ∈ calls, ∀ rest, path = c.path ++ rest →
        (Json.obj (c.answer visit)).at? rest = (Json.obj c.node).at? rest := by
      intro c mem rest same
      obtain ⟨k, place, tail, led⟩ := through c mem ⟨rest, same.symm⟩
      obtain rfl := List.append_cancel_left (same.symm.trans led)
      exact keeps.at?_answer (distinct.at? (tour.at?_of_mem mem)) place tail
    exact ⟨tour.performs.outline_at? kept, tour.performs.at?_eq kept⟩

/-- Numbers the nodes in the order of the calls, and skips what is below those with a title. -/
def numberer : Visitor Nat := fun node count =>
  if node.contains "title" then (.skip (node.insert "x-number" (.int count)), count + 1)
  else (.descend (node.insert "x-number" (.int count)), count + 1)

theorem keepsPlaces_numberer : KeepsPlaces numberer := by
  intro n s _ k place
  have other : "x-number" ≠ k := by
    rintro rfl
    exact absurd place (by decide)
  unfold numberer
  split <;> exact Dict.get?_insert.trans (if_neg other)

def toy : Json.Members := ⟨[("title", .str "Toy"), ("items", .object [("type", .str "string")])]⟩

/-- A description with a reference below a schema, and with a schema that has a title. -/
def petStore : Json := .object [
  ("info", .object [("title", .str "Pets")]),
  ("components", .object [("schemas", .object [
    ("Pet", .object [("properties", .object [
      ("toy", .object [("$ref", .str "#/components/schemas/Toy")])])]),
    ("Toy", .obj toy)])])]

/-- The path to what stands below a schema. -/
def petStorePath (name : String) (rest : Path) : Path :=
  .member "components" :: .member "schemas" :: .member name :: rest

theorem position_toy : Position (.part .document) petStore (petStorePath "Toy" []) toy :=
  position_component rfl rfl

/-- No schema stands above those of the components. -/
theorem eq_of_prefix_toy {path : Path} {n : Json.Members}
    (schema : SchemaAt (.part .document) petStore path n)
    (above : path <+: petStorePath "Toy" []) : path = petStorePath "Toy" [] := by
  obtain ⟨-, goal, along, isSchema⟩ := schema
  simp only [petStorePath, List.prefix_cons_iff, List.prefix_nil] at above
  rcases above with rfl | ⟨_, rfl, rfl | ⟨_, rfl, rfl | ⟨_, rfl, rfl⟩⟩⟩
  · cases along
    exact absurd isSchema not_isSchema_part
  · cases along
    exact absurd isSchema not_isSchema_part
  · cases along
    exact absurd isSchema not_isSchema_map
  · rfl

theorem walkDocument_calls_petStore :
    KeepsPlaces numberer ∧ petStore.Distinct ∧
      ∃ calls, Performs numberer petStore 0 calls (walkDocument numberer petStore 0).1
          (walkDocument numberer petStore 0).2 ∧
        (∃ c ∈ calls, c.path = petStorePath "Toy" [] ∧ c.node = toy) ∧
        (∀ c ∈ calls, c.path ≠ petStorePath "Toy" [.member "items"]) ∧
        ∀ c ∈ calls, c.path ≠ petStorePath "Pet" [.member "properties", .member "toy"] := by
  have distinct : petStore.Distinct := by
    simp [petStore, toy, Json.object, Json.distinct_obj_iff]
  obtain ⟨calls, performs, -, -, met, -⟩ := walkDocument_calls keepsPlaces_numberer distinct 0
  have called : ∃ c ∈ calls, c.path = petStorePath "Toy" [] ∧ c.node = toy := by
    refine (met _ _).mpr ⟨position_toy.schema, position_toy.own, fun c mem _ above => ?_⟩
    exact eq_of_prefix_toy ((met c.path c.node).mp ⟨c, mem, rfl, rfl⟩).1 above
  refine ⟨keepsPlaces_numberer, distinct, calls, performs, called, ?_, ?_⟩
  · intro c mem same
    obtain ⟨-, -, clear⟩ := (met c.path c.node).mp ⟨c, mem, rfl, rfl⟩
    obtain ⟨d, inside, place, node⟩ := called
    have skips : d.Skips numberer := by
      rw [Call.Skips, node]
      exact ⟨_, rfl⟩
    have here := clear d inside skips ⟨[.member "items"], by rw [place, same]; rfl⟩
    rw [place, same] at here
    cases here
  · intro c mem same
    obtain ⟨schema, own, -⟩ := (met c.path c.node).mp ⟨c, mem, rfl, rfl⟩
    have plain := own c.path c.node List.prefix_rfl schema
    rw [same] at schema
    have found : some (Json.obj ⟨[("$ref", .str "#/components/schemas/Toy")]⟩) =
        some (.obj c.node) := schema.1
    rw [← Json.obj.inj (Option.some.inj found)] at plain
    cases plain

end ToolGateway.Schema
