import ToolGateway.Proofs.Schema.Walk

/-!
# What a walk leaves behind

Facts about whole walks that follow from what the visitor does with one node. The visitor is shown
one node after another, and all that there are when it goes on below each of them
(`Walks.exists_shows`). Where it changes nothing, the walk changes nothing (`Walks.unmoved`). A
property that it gives to each node holds of every node that the next walk visits
(`Walks.throughout`). No walk repeats a key when the visitor does not (`Walks.distinct`). A visitor
that does nothing but note the nodes it is shown tells which ones are visited (`mem_visited_iff`).
-/

namespace ToolGateway.Schema

variable {σ : Type}

/-- The node that a visitor answers with. -/
def Visit.node : Visit → Json.Members
  | skip node => node
  | descend node => node

theorem nodup_places : (places.map (·.1)).Nodup := by decide

theorem Part.nodup_places (p : Part) : (p.places.map (·.1)).Nodup := by
  cases p <;> decide

/-- Neither a reference nor what the filters take away stands at a place of a node. -/
theorem ne_of_mem_places : ∀ k ∈ places.map (·.1),
    k ≠ "$ref" ∧ k ≠ "discriminator" ∧ k ≠ "pattern" := by
  decide

/-! ### The nodes visited, ground by ground -/

section

variable {role : Role} {node out out' n : Json.Members} {v : Json} {k : String}
  {ps : List (String × Role)}

theorem Visits.within {role : Role} {v : Json} (h : Visits role v n) :
    (Json.obj n).Within v := by
  induction h with
  | here _ => exact .self
  | under _ _ there _ ih | part _ there _ ih => exact .member (Dict.mem_of_lookup there) ih
  | one _ ih => exact ih
  | several mem _ ih | item mem _ ih => exact .item mem ih
  | entry mem _ ih => exact .member mem ih

/-- No node that is visited is a reference. -/
theorem Visits.own {role : Role} {v : Json} (h : Visits role v n) :
    n.contains "$ref" = false := by
  induction h with
  | here own => exact own
  | under _ _ _ _ ih | part _ _ _ ih | one _ ih | several _ _ ih | item _ _ ih
  | entry _ _ ih => exact ih

/-- What is visited below a node that is visited is visited itself. -/
theorem Visits.trans {role : Role} {v : Json} {m : Json.Members} (h : Visits role v n)
    (below : Visits .schema (.obj n) m) : Visits role v m := by
  induction h with
  | here _ => exact below
  | under own place there _ ih => exact .under own place there (ih below)
  | part place there _ ih => exact .part place there (ih below)
  | one _ ih => exact .one (ih below)
  | several mem _ ih => exact .several mem (ih below)
  | item mem _ ih => exact .item mem (ih below)
  | entry mem _ ih => exact .entry mem (ih below)

namespace Ground

theorem visits_schema_iff (own : node.contains "$ref" = false) :
    (value .schema (.obj node)).Visits n ↔
      n = node ∨ (places node Schema.places out).Visits n := by
  constructor
  · rintro (_ | ⟨-, place, there, inner⟩)
    · exact Or.inl rfl
    · exact Or.inr ⟨_, _, _, place, there, inner⟩
  · rintro (rfl | ⟨_, _, _, place, there, inner⟩)
    · exact .here own
    · exact .under own place there inner

theorem visits_part_iff {p : Part} :
    (value (.part p) (.obj node)).Visits n ↔ (places node p.places out).Visits n := by
  constructor
  · rintro ⟨⟩
    exact ⟨_, _, _, ‹_›, ‹_›, ‹_›⟩
  · rintro ⟨_, _, _, place, there, inner⟩
    exact .part place there inner

theorem visits_one_iff (flat : ∀ items, v ≠ .arr items) :
    (value .subschema v).Visits n ↔ (value .schema v).Visits n := by
  constructor
  · rintro (_ | _)
    · assumption
    · exact absurd rfl (flat _)
  · exact .one

theorem visits_several_iff {vs : List Json} :
    (value .subschema (.arr vs)).Visits n ↔ (items .schema vs).Visits n := by
  constructor
  · intro h
    cases h with
    | one inner => cases inner
    | several mem inner => exact ⟨_, mem, inner⟩
  · rintro ⟨_, mem, inner⟩
    exact .several mem inner

theorem visits_list_iff {vs : List Json} :
    (value (.list role) (.arr vs)).Visits n ↔ (items role vs).Visits n := by
  constructor
  · rintro ⟨⟩
    exact ⟨_, ‹_›, ‹_›⟩
  · rintro ⟨_, mem, inner⟩
    exact .item mem inner

theorem visits_map_iff {es : List (String × Json)} :
    (value (.map role) (.obj ⟨es⟩)).Visits n ↔ (entries role es).Visits n := by
  constructor
  · rintro ⟨⟩
    exact ⟨_, ‹_›, ‹_›⟩
  · rintro ⟨_, mem, inner⟩
    exact .entry mem inner

theorem not_visits_noItem : ¬(items role []).Visits n := by
  rintro ⟨_, mem, -⟩
  cases mem

theorem visits_item_iff {vs : List Json} :
    (items role (v :: vs)).Visits n ↔ (value role v).Visits n ∨ (items role vs).Visits n := by
  simp only [Ground.Visits, List.mem_cons, exists_eq_or_imp]

theorem not_visits_noEntry : ¬(entries role []).Visits n := by
  rintro ⟨_, mem, -⟩
  cases mem

theorem visits_entry_iff {es : List (String × Json)} :
    (entries role ((k, v) :: es)).Visits n ↔
      (value role v).Visits n ∨ (entries role es).Visits n := by
  simp only [Ground.Visits, List.mem_cons, exists_eq_or_imp]

theorem not_visits_noPlace : ¬(places node [] out).Visits n := by
  rintro ⟨_, _, _, mem, -, -⟩
  cases mem

theorem visits_place_iff (out' : Json.Members) (there : node.get? k = some v) :
    (places node ((k, role) :: ps) out).Visits n ↔
      (value role v).Visits n ∨ (places node ps out').Visits n := by
  constructor
  · rintro ⟨_, _, w, mem, found, inner⟩
    rcases List.mem_cons.mp mem with mem | mem
    · cases mem
      rw [there] at found
      cases found
      exact Or.inl inner
    · exact Or.inr ⟨_, _, w, mem, found, inner⟩
  · rintro (inner | ⟨_, _, w, mem, found, inner⟩)
    · exact ⟨_, _, _, List.mem_cons_self, there, inner⟩
    · exact ⟨_, _, w, List.mem_cons_of_mem _ mem, found, inner⟩

theorem visits_passed_iff (none : ∀ v, node.get? k = some v → ∀ n, ¬Schema.Visits role v n) :
    (places node ((k, role) :: ps) out).Visits n ↔ (places node ps out').Visits n := by
  constructor
  · rintro ⟨_, _, w, mem, found, inner⟩
    rcases List.mem_cons.mp mem with mem | mem
    · cases mem
      exact absurd inner (none w found n)
    · exact ⟨_, _, w, mem, found, inner⟩
  · rintro ⟨_, _, w, mem, found, inner⟩
    exact ⟨_, _, w, List.mem_cons_of_mem _ mem, found, inner⟩

/-- The places that are still to be walked over are as they were in the node. -/
def Ready : Ground → Prop
  | places node ps out => (ps.map (·.1)).Nodup ∧ ∀ p ∈ ps, out.get? p.1 = node.get? p.1
  | _ => True

theorem Ready.rest {out : Json.Members} {p : String × Role}
    (h : (places node (p :: ps) out).Ready) : (places node ps out).Ready :=
  ⟨(List.nodup_cons.mp h.1).2, fun q hq => h.2 q (List.mem_cons_of_mem _ hq)⟩

theorem Ready.replace {out : Json.Members} {p : String × Role}
    (h : (places node (p :: ps) out).Ready) (w : Json) :
    (places node ps (out.replace p.1 w)).Ready := by
  obtain ⟨nodup, same⟩ := h.rest
  refine ⟨nodup, fun q hq => ?_⟩
  have ne : p.1 ≠ q.1 := by
    intro heq
    exact (List.nodup_cons.mp h.1).1 (List.mem_map.mpr ⟨q, hq, heq.symm⟩)
  rw [Dict.get?_replace_of_ne ne, same q hq]

/-- The ground that a result stands for. -/
def after : Ground → Json → Ground
  | value role _, r => value role r
  | items role _, .arr vs => items role vs
  | entries role _, .obj ⟨es⟩ => entries role es
  | places _ ps _, .obj node => places node ps node
  | g, _ => g

/-- A ground repeats no key. -/
def Distinct : Ground → Prop
  | value _ v => v.Distinct
  | items _ vs => (Json.arr vs).Distinct
  | entries _ es => (Json.obj ⟨es⟩).Distinct
  | places node _ out => (Json.obj node).Distinct ∧ (Json.obj out).Distinct

end Ground

end

/-! ### What holds of every node visited -/

/-- Every node that is visited below a value has a property. -/
def Throughout (p : Json.Members → Prop) (role : Role) (v : Json) : Prop :=
  ∀ n, Visits role v n → p n

section

variable {p : Json.Members → Prop} {role : Role} {node : Json.Members} {v : Json} {k : String}

theorem throughout_list_iff {vs : List Json} :
    Throughout p (.list role) (.arr vs) ↔ ∀ v ∈ vs, Throughout p role v := by
  constructor
  · exact fun h v hv n hn => h n (.item hv hn)
  · rintro h n ⟨⟩
    exact h _ ‹_› n ‹_›

theorem Throughout.entry (h : Throughout p (.map role) (.obj node)) (there : node.get? k = some v) :
    Throughout p role v :=
  fun n hn => h n (.entry (Dict.mem_of_lookup there) hn)

theorem throughout_map_iff : Throughout p (.map role) (.obj node) ↔
    ∀ e ∈ node.entries, Throughout p role e.2 := by
  constructor
  · exact fun h e he n hn => h n (.entry he hn)
  · rintro h n ⟨⟩
    exact h _ ‹_› n ‹_›

theorem throughout_part_iff {part : Part} : Throughout p (.part part) (.obj node) ↔
    ∀ k role v, (k, role) ∈ part.places → node.get? k = some v → Throughout p role v := by
  constructor
  · exact fun h k role v place there n hn => h n (.part place there hn)
  · rintro h n ⟨⟩
    exact h _ _ _ ‹_› ‹_› n ‹_›

theorem Throughout.replace_part {part : Part} (h : Throughout p (.part part) (.obj node))
    (put : ∀ role, (k, role) ∈ part.places → Throughout p role v) :
    Throughout p (.part part) (.obj (node.replace k v)) := by
  refine throughout_part_iff.mpr fun key role w place there => ?_
  rw [Dict.get?_replace] at there
  split at there
  · next same =>
    obtain ⟨rfl, -⟩ := same
    cases there
    exact put role place
  · exact throughout_part_iff.mp h key role w place there

/-- A reference is not visited. -/
theorem throughout_of_ref (ref : node.contains "$ref" = true) :
    Throughout p .schema (.obj node) := by
  intro n hn
  refine absurd hn (not_visits_schema ?_ n)
  rintro m ⟨⟩
  exact ref

theorem throughout_schema_iff (own : node.contains "$ref" = false) :
    Throughout p .schema (.obj node) ↔
      p node ∧ ∀ k role v, (k, role) ∈ places → node.get? k = some v → Throughout p role v := by
  constructor
  · intro h
    exact ⟨h node (.here own), fun _ _ _ place there n hn => h n (.under own place there hn)⟩
  · rintro ⟨here, below⟩ n (_ | ⟨-, place, there, inner⟩)
    · exact here
    · exact below _ _ _ place there n inner

/-- A schema in place of another one has a property throughout when it has it itself and what is
new at its places does. -/
theorem Throughout.rewrite {node' : Json.Members} (h : Throughout p .schema (.obj node))
    (ref : node'.get? "$ref" = node.get? "$ref") (here : p node → p node')
    (each : node.contains "$ref" = false → ∀ k role v, (k, role) ∈ places →
      node'.get? k = some v → node.get? k = some v ∨ Throughout p role v) :
    Throughout p .schema (.obj node') := by
  have same : node'.contains "$ref" = node.contains "$ref" := by
    rw [Dict.contains, ref, Dict.contains]
  by_cases own : node.contains "$ref" = true
  · exact throughout_of_ref (same.trans own)
  · rw [Bool.not_eq_true] at own
    obtain ⟨hp, below⟩ := (throughout_schema_iff own).mp h
    refine (throughout_schema_iff (same.trans own)).mpr ⟨here hp, fun k role v place there => ?_⟩
    exact (each own k role v place there).elim (below k role v place) id

end

/-! ### The nodes that a visitor is shown -/

section

variable {visit : Visitor σ} {g g₁ g₂ : Ground} {s s₁ s' : σ} {shown shown' : List Json.Members}

/-- The visitor was shown these nodes, in order, on the way from one state to another. They are all
the nodes there are to visit when it said to go on below each of them. -/
structure Shows (visit : Visitor σ) (g : Ground) (s s' : σ) (shown : List Json.Members) :
    Prop where
  last : s' = shown.foldl (fun s n => (visit n s).2) s
  sound : ∀ n ∈ shown, g.Visits n
  all : (∀ n ∈ shown, ∀ s, ∃ n', (visit n s).1 = .descend n') → ∀ n, g.Visits n → n ∈ shown

theorem Shows.nothing (none : ∀ n, ¬g.Visits n) : Shows visit g s s [] where
  last := rfl
  sound := nofun
  all _ n hn := absurd hn (none n)

theorem Shows.congr (same : ∀ n, g.Visits n ↔ g₁.Visits n) (h : Shows visit g₁ s s' shown) :
    Shows visit g s s' shown where
  last := h.last
  sound n hn := (same n).mpr (h.sound n hn)
  all on n hn := h.all on n ((same n).mp hn)

theorem Shows.append (h : Shows visit g₁ s s₁ shown) (h' : Shows visit g₂ s₁ s' shown')
    (split : ∀ n, g.Visits n ↔ g₁.Visits n ∨ g₂.Visits n) :
    Shows visit g s s' (shown ++ shown') where
  last := by rw [List.foldl_append, ← h.last, ← h'.last]
  sound := List.forall_mem_append.mpr ⟨fun n hn => (split n).mpr (Or.inl (h.sound n hn)),
    fun n hn => (split n).mpr (Or.inr (h'.sound n hn))⟩
  all on n hn := by
    obtain ⟨first, others⟩ := List.forall_mem_append.mp on
    rcases (split n).mp hn with hn | hn
    · exact List.mem_append_left _ (h.all first n hn)
    · exact List.mem_append_right _ (h'.all others n hn)

/-- Some nodes that the visitor is shown lead from one state to another. -/
def Leads (visit : Visitor σ) (s s' : σ) : Prop :=
  ∃ shown : List Json.Members, s' = shown.foldl (fun s n => (visit n s).2) s

theorem Leads.trans (h : Leads visit s s₁) (h' : Leads visit s₁ s') : Leads visit s s' := by
  obtain ⟨shown, rfl⟩ := h
  obtain ⟨shown', rfl⟩ := h'
  exact ⟨shown ++ shown', List.foldl_append.symm⟩

/-- What no node that the visitor is shown takes away from the state stays. -/
theorem Leads.keeps {Q : σ → Prop} (h : Leads visit s s') (step : ∀ n s, Q s → Q (visit n s).2)
    (first : Q s) : Q s' := by
  obtain ⟨shown, rfl⟩ := h
  induction shown generalizing s with
  | nil => exact first
  | cons n shown ih => exact ih (step n s first)

/-- What the last state tells of the nodes that led to it. -/
theorem forall_of_foldl {Q : σ → Prop} {p : Json.Members → Prop}
    (back : ∀ n s, Q (visit n s).2 → Q s ∧ p n)
    (last : Q (shown.foldl (fun s n => (visit n s).2) s)) : Q s ∧ ∀ n ∈ shown, p n := by
  induction shown generalizing s with
  | nil => exact ⟨last, nofun⟩
  | cons n shown ih =>
    obtain ⟨mid, others⟩ := ih last
    obtain ⟨first, here⟩ := back n s mid
    exact ⟨first, List.forall_mem_cons.mpr ⟨here, others⟩⟩

/-- What holds in the last state held in the first one, or came with a node that led there. -/
theorem exists_of_foldl {Q : σ → Prop} {p : Json.Members → Prop}
    (step : ∀ n s, Q (visit n s).2 → Q s ∨ p n)
    (last : Q (shown.foldl (fun s n => (visit n s).2) s)) : Q s ∨ ∃ n ∈ shown, p n := by
  induction shown generalizing s with
  | nil => exact Or.inl last
  | cons n shown ih =>
    rcases ih last with mid | ⟨m, mem, here⟩
    · exact (step n s mid).imp_right fun here => ⟨n, List.mem_cons_self, here⟩
    · exact Or.inr ⟨m, List.mem_cons_of_mem _ mem, here⟩

end

/-! ### Walks by what the visitor does -/

/-- What a visitor makes of a node has a property. Below a node that it skips all nodes have it, and
where it goes on below a node it changes nothing at the places. -/
def Gives (visit : Visitor σ) (p : Json.Members → Prop) (n : Json.Members) : Prop :=
  ∀ s, match (visit n s).1 with
    | .skip out => ∀ m, Visits .schema (.obj out) m → p m
    | .descend out => p out ∧ ∀ key ∈ "$ref" :: places.map (·.1), out.get? key = n.get? key

namespace Walks

variable {visit : Visitor σ} {g : Ground} {s s' : σ} {r : Json}

/-- A walk is idle where the visitor changes nothing. -/
theorem unmoved (h : Walks visit g s r s') (ready : g.Ready)
    (still : ∀ n, g.Visits n → ∀ s, visit n s = (.descend n, s)) : r = g.before ∧ s' = s := by
  induction h with
  | idle _ | noItem | noEntry | noPlace => exact ⟨rfl, rfl⟩
  | skip own met =>
    rw [still _ (.here own)] at met
    cases met
  | descend own met _ ih =>
    rw [still _ (.here own)] at met
    cases met
    exact ih ⟨nodup_places, fun _ _ => rfl⟩
      fun n hn => still n ((Ground.visits_schema_iff own).mpr (Or.inr hn))
  | part _ ih =>
    exact ih ⟨Part.nodup_places _, fun _ _ => rfl⟩
      fun n hn => still n (Ground.visits_part_iff.mpr hn)
  | one flat _ ih => exact ih trivial fun n hn => still n ((Ground.visits_one_iff flat).mpr hn)
  | several _ ih => exact ih trivial fun n hn => still n (Ground.visits_several_iff.mpr hn)
  | list _ ih => exact ih trivial fun n hn => still n (Ground.visits_list_iff.mpr hn)
  | map _ ih => exact ih trivial fun n hn => still n (Ground.visits_map_iff.mpr hn)
  | item _ _ ih ih' =>
    obtain ⟨rfl, rfl⟩ := ih trivial fun n hn => still n (Ground.visits_item_iff.mpr (Or.inl hn))
    obtain ⟨same, rfl⟩ := ih' trivial fun n hn => still n (Ground.visits_item_iff.mpr (Or.inr hn))
    cases same
    exact ⟨rfl, rfl⟩
  | entry _ _ ih ih' =>
    obtain ⟨rfl, rfl⟩ := ih trivial fun n hn => still n (Ground.visits_entry_iff.mpr (Or.inl hn))
    obtain ⟨same, rfl⟩ := ih' trivial fun n hn => still n (Ground.visits_entry_iff.mpr (Or.inr hn))
    cases same
    exact ⟨rfl, rfl⟩
  | passed none _ ih =>
    exact ih ready.rest fun n hn => still n ((Ground.visits_passed_iff none).mpr hn)
  | @place node out k _ _ v w _ _ _ _ there _ _ ih ih' =>
    have still' := fun n hn => still n ((Ground.visits_place_iff out there).mpr hn)
    obtain ⟨kept, rfl⟩ := ih trivial fun n hn => still' n (Or.inl hn)
    obtain rfl : w = v := kept
    have same : out.get? k = some w := (ready.2 _ List.mem_cons_self).trans there
    rw [Dict.replace_of_get? same] at ih'
    exact ih' ready.rest fun n hn => still' n (Or.inr hn)

/-- A walk shows the visitor one node after another. -/
theorem exists_shows (h : Walks visit g s r s') : ∃ shown, Shows visit g s s' shown := by
  induction h with
  | idle none => exact ⟨[], .nothing none⟩
  | noItem => exact ⟨[], .nothing fun _ => Ground.not_visits_noItem⟩
  | noEntry => exact ⟨[], .nothing fun _ => Ground.not_visits_noEntry⟩
  | noPlace => exact ⟨[], .nothing fun _ => Ground.not_visits_noPlace⟩
  | @skip node out s s' own met =>
    refine ⟨[node], (congrArg Prod.snd met).symm, ?_, fun on => ?_⟩
    · exact List.forall_mem_singleton.mpr (.here own)
    · obtain ⟨n', on⟩ := on node List.mem_cons_self s
      rw [met] at on
      cases on
  | @descend node out s s₁ s' r own met _ ih =>
    obtain ⟨below, last, sound, all⟩ := ih
    refine ⟨node :: below, ?_, ?_, fun on n hn => ?_⟩
    · rw [List.foldl_cons, met]
      exact last
    · exact List.forall_mem_cons.mpr ⟨.here own, fun n hn =>
        (Ground.visits_schema_iff own).mpr (Or.inr (sound n hn))⟩
    · rcases (Ground.visits_schema_iff own).mp hn with rfl | hn
      · exact List.mem_cons_self
      · exact List.mem_cons_of_mem _ (all (List.forall_mem_cons.mp on).2 n hn)
  | part _ ih => exact ih.imp fun _ => .congr fun _ => Ground.visits_part_iff
  | one flat _ ih => exact ih.imp fun _ => .congr fun _ => Ground.visits_one_iff flat
  | several _ ih => exact ih.imp fun _ => .congr fun _ => Ground.visits_several_iff
  | list _ ih => exact ih.imp fun _ => .congr fun _ => Ground.visits_list_iff
  | map _ ih => exact ih.imp fun _ => .congr fun _ => Ground.visits_map_iff
  | passed none _ ih => exact ih.imp fun _ => .congr fun _ => Ground.visits_passed_iff none
  | item _ _ ih ih' =>
    obtain ⟨first, here⟩ := ih
    obtain ⟨others, rest⟩ := ih'
    exact ⟨first ++ others, here.append rest fun _ => Ground.visits_item_iff⟩
  | entry _ _ ih ih' =>
    obtain ⟨first, here⟩ := ih
    obtain ⟨others, rest⟩ := ih'
    exact ⟨first ++ others, here.append rest fun _ => Ground.visits_entry_iff⟩
  | place there _ _ ih ih' =>
    obtain ⟨first, here⟩ := ih
    obtain ⟨others, rest⟩ := ih'
    exact ⟨first ++ others, here.append rest fun _ => Ground.visits_place_iff _ there⟩

/-- A walk leads from its first state to its last one by the nodes that the visitor is shown. -/
theorem leads (h : Walks visit g s r s') : Leads visit s s' := by
  obtain ⟨shown, shows⟩ := h.exists_shows
  exact ⟨shown, shows.last⟩

/-- What holds in the last state of a walk held in the first one, or came with a node that is
visited. -/
theorem exists_visits {Q : σ → Prop} {p : Json.Members → Prop} (h : Walks visit g s r s')
    (step : ∀ n s, Q (visit n s).2 → Q s ∨ p n) (last : Q s') :
    Q s ∨ ∃ n, g.Visits n ∧ p n := by
  obtain ⟨shown, shows⟩ := h.exists_shows
  rw [shows.last] at last
  exact (exists_of_foldl step last).imp_right fun ⟨n, mem, here⟩ => ⟨n, shows.sound n mem, here⟩

/-- A walk visits only nodes with a property, when its last state tells so of the nodes that the
visitor was shown and the visitor goes on below every node with it. -/
theorem quiet {Q : σ → Prop} {p : Json.Members → Prop} (h : Walks visit g s r s')
    (back : ∀ n s, Q (visit n s).2 → Q s ∧ p n)
    (on : ∀ n, p n → ∀ s, ∃ n', (visit n s).1 = .descend n') (last : Q s') :
    ∀ n, g.Visits n → p n := by
  obtain ⟨shown, same, -, all⟩ := h.exists_shows
  have told : ∀ n ∈ shown, p n := by
    rw [same] at last
    exact (forall_of_foldl back last).2
  exact fun n hn => told n (all (fun n hn => on n (told n hn)) n hn)

/-- What holds of a node whatever is put at its places holds of it afterwards. -/
theorem exists_obj {node out : Json.Members} {ps : List (String × Role)}
    {p : Json.Members → Prop} (h : Walks visit (.places node ps out) s r s')
    (keeps : ∀ n k w, k ∈ ps.map (·.1) → p n → p (n.replace k w)) (first : p out) :
    ∃ n, r = .obj n ∧ p n := by
  induction ps generalizing out s with
  | nil =>
    cases h
    exact ⟨out, rfl, first⟩
  | cons q ps ih =>
    have keeps' : ∀ n k w, k ∈ ps.map (·.1) → p n → p (n.replace k w) :=
      fun n k w hk => keeps n k w (List.mem_cons_of_mem _ hk)
    cases h with
    | passed _ rest => exact ih rest keeps' first
    | place _ _ rest => exact ih rest keeps' (keeps out _ _ List.mem_cons_self first)

/-- What stands under other keys than those of the places stays. -/
theorem exists_obj_get? {node out : Json.Members} {ps : List (String × Role)}
    (h : Walks visit (.places node ps out) s r s') :
    ∃ n, r = .obj n ∧ ∀ key, key ∉ ps.map (·.1) → n.get? key = out.get? key := by
  refine h.exists_obj (p := fun n => ∀ key, key ∉ ps.map (·.1) → n.get? key = out.get? key)
    (fun n k w hk hn key hkey => ?_) fun _ _ => rfl
  have ne : k ≠ key := fun heq => hkey (heq ▸ hk)
  rw [Dict.get?_replace_of_ne ne, hn key hkey]

/-- A walk over the items of an array keeps their number. -/
theorem exists_items {role : Role} {vs : List Json} (h : Walks visit (.items role vs) s r s') :
    ∃ rs, r = .arr rs ∧ rs.length = vs.length := by
  induction vs generalizing s r with
  | nil =>
    cases h
    exact ⟨[], rfl, rfl⟩
  | cons v vs ih =>
    cases h with
    | item _ rest =>
      obtain ⟨rs, same, length⟩ := ih rest
      cases same
      exact ⟨_, rfl, congrArg (· + 1) length⟩

/-- The entries of an object keep their keys. -/
theorem exists_entries {role : Role} {es : List (String × Json)}
    (h : Walks visit (.entries role es) s r s') :
    ∃ rs, r = .obj ⟨rs⟩ ∧ rs.map (·.1) = es.map (·.1) := by
  induction es generalizing s r with
  | nil =>
    cases h
    exact ⟨[], rfl, rfl⟩
  | cons e es ih =>
    cases h with
    | entry _ rest =>
      obtain ⟨rs, same, keys⟩ := ih rest
      cases same
      exact ⟨_, rfl, congrArg (_ :: ·) keys⟩

/-- A schema that is no list does not become one. -/
theorem ne_arr {v : Json} (h : Walks visit (.value .schema v) s r s')
    (flat : ∀ items, v ≠ .arr items) : ∀ items, r ≠ .arr items := by
  cases h with
  | idle _ => exact flat
  | skip _ _ => exact fun _ => Json.noConfusion
  | descend _ _ run =>
    obtain ⟨_, rfl, -⟩ := run.exists_obj_get?
    exact fun _ => Json.noConfusion

/-- What stands at a place afterwards is what came of the value there. -/
theorem get?_of_place {node out m : Json.Members} {k : String} {role : Role}
    {ps : List (String × Role)} {v w : Json}
    (rest : Walks visit (.places node ps (out.replace k w)) s (.obj m) s')
    (ready : (Ground.places node ((k, role) :: ps) out).Ready) (there : node.get? k = some v) :
    m.get? k = some w := by
  obtain ⟨_, same, others⟩ := rest.exists_obj_get?
  cases same
  rw [others k (List.nodup_cons.mp ready.1).1]
  refine Dict.get?_replace_self (Dict.contains_of_get? (v := v) ?_)
  rw [ready.2 _ List.mem_cons_self, there]

/-- What stands at a place that is passed stays. -/
theorem get?_of_passed {node out m : Json.Members} {k : String} {role : Role}
    {ps : List (String × Role)} (rest : Walks visit (.places node ps out) s (.obj m) s')
    (ready : (Ground.places node ((k, role) :: ps) out).Ready) : m.get? k = node.get? k := by
  obtain ⟨_, same, others⟩ := rest.exists_obj_get?
  cases same
  rw [others k (List.nodup_cons.mp ready.1).1, ready.2 _ List.mem_cons_self]

/-- A walk leaves every array its length, and makes no array of anything else. -/
theorem length_arr? {role : Role} {v : Json} (h : Walks visit (.value role v) s r s') :
    r.arr?.map List.length = v.arr?.map List.length := by
  cases h with
  | idle _ | skip _ _ => rfl
  | descend _ _ run | part run =>
    obtain ⟨_, rfl, -⟩ := run.exists_obj_get?
    rfl
  | map run =>
    obtain ⟨_, rfl, -⟩ := run.exists_entries
    rfl
  | several run | list run =>
    obtain ⟨_, rfl, length⟩ := run.exists_items
    exact congrArg some length
  | one flat run =>
    have none : ∀ u : Json, (∀ items, u ≠ .arr items) → u.arr? = none := by
      intro u hu
      cases u with
      | arr items => exact absurd rfl (hu items)
      | null | bool _ | int _ | float _ | str _ | obj _ => rfl
    rw [none r (run.ne_arr flat), none v flat]

/-- What holds of a node whatever a walk makes of the values at its places holds of it
afterwards. -/
theorem exists_obj_of_ready {node out : Json.Members} {ps : List (String × Role)}
    {p : Json.Members → Prop} (h : Walks visit (.places node ps out) s r s')
    (ready : (Ground.places node ps out).Ready)
    (keeps : ∀ n k v w, k ∈ ps.map (·.1) → n.get? k = some v →
      w.arr?.map List.length = v.arr?.map List.length → p n → p (n.replace k w))
    (first : p out) : ∃ n, r = .obj n ∧ p n := by
  induction ps generalizing out s with
  | nil =>
    cases h
    exact ⟨out, rfl, first⟩
  | cons q ps ih =>
    have keeps' := fun n k v w hk => keeps n k v w (List.mem_cons_of_mem q.1 hk)
    cases h with
    | passed _ rest => exact ih rest ready.rest keeps' first
    | place there run rest =>
      have found := (ready.2 _ List.mem_cons_self).trans there
      exact ih rest (ready.replace _) keeps'
        (keeps out _ _ _ List.mem_cons_self found run.length_arr? first)

/-- A property that every node has which the visitor makes, and which does not depend on what a walk
makes of the values at its places, holds of every node that is visited afterwards. -/
theorem throughout {p : Json.Members → Prop} (h : Walks visit g s r s') (ready : g.Ready)
    (gives : ∀ n, g.Visits n → Gives visit p n)
    (keeps : ∀ n k v w, k ∈ places.map (·.1) → n.get? k = some v →
      w.arr?.map List.length = v.arr?.map List.length → p n → p (n.replace k w)) :
    ∀ n, (g.after r).Visits n → p n := by
  induction h with
  | idle none => exact fun n hn => absurd hn (none n)
  | @skip node out s _ own met =>
    have given := gives _ (.here own) s
    rw [met] at given
    exact given
  | @descend node out s _ _ r own met run ih =>
    have given := gives _ (.here own) s
    rw [met] at given
    obtain ⟨good, same⟩ := given
    obtain ⟨refSame, placeSame⟩ := List.forall_mem_cons.mp same
    have own' : out.contains "$ref" = false := by
      rw [Dict.contains, refSame]
      exact own
    have ready' : (Ground.places node places out).Ready :=
      ⟨nodup_places, fun q hq => placeSame q.1 (List.mem_map_of_mem hq)⟩
    obtain ⟨m, rfl, ownM, goodM⟩ := run.exists_obj_of_ready ready'
      (p := fun n => n.contains "$ref" = false ∧ p n) (fun n k v w hk hv length hn => by
        refine ⟨?_, keeps n k v w hk hv length hn.2⟩
        rw [Dict.contains, Dict.get?_replace_of_ne (ne_of_mem_places k hk).1]
        exact hn.1) ⟨own', good⟩
    intro n hn
    rcases (Ground.visits_schema_iff ownM).mp hn with rfl | hn
    · exact goodM
    · exact ih ready' (fun n hn => gives n ((Ground.visits_schema_iff own).mpr (Or.inr hn))) n hn
  | part run ih =>
    obtain ⟨m, rfl, -⟩ := run.exists_obj_get?
    exact fun n hn => ih ⟨Part.nodup_places _, fun _ _ => rfl⟩
      (fun n hn => gives n (Ground.visits_part_iff.mpr hn)) n (Ground.visits_part_iff.mp hn)
  | one flat run ih =>
    intro n hn
    exact ih trivial (fun n hn => gives n ((Ground.visits_one_iff flat).mpr hn)) n
      ((Ground.visits_one_iff (run.ne_arr flat)).mp hn)
  | several run ih =>
    obtain ⟨rs, rfl, -⟩ := run.exists_items
    exact fun n hn => ih trivial (fun n hn => gives n (Ground.visits_several_iff.mpr hn)) n
      (Ground.visits_several_iff.mp hn)
  | list run ih =>
    obtain ⟨rs, rfl, -⟩ := run.exists_items
    exact fun n hn => ih trivial (fun n hn => gives n (Ground.visits_list_iff.mpr hn)) n
      (Ground.visits_list_iff.mp hn)
  | map run ih =>
    obtain ⟨rs, rfl, -⟩ := run.exists_entries
    exact fun n hn => ih trivial (fun n hn => gives n (Ground.visits_map_iff.mpr hn)) n
      (Ground.visits_map_iff.mp hn)
  | noItem => exact fun n hn => absurd hn Ground.not_visits_noItem
  | noEntry => exact fun n hn => absurd hn Ground.not_visits_noEntry
  | noPlace => exact fun n hn => absurd hn Ground.not_visits_noPlace
  | item _ _ ih ih' =>
    intro n hn
    rcases Ground.visits_item_iff.mp hn with hn | hn
    · exact ih trivial (fun n hn => gives n (Ground.visits_item_iff.mpr (Or.inl hn))) n hn
    · exact ih' trivial (fun n hn => gives n (Ground.visits_item_iff.mpr (Or.inr hn))) n hn
  | entry _ _ ih ih' =>
    intro n hn
    rcases Ground.visits_entry_iff.mp hn with hn | hn
    · exact ih trivial (fun n hn => gives n (Ground.visits_entry_iff.mpr (Or.inl hn))) n hn
    · exact ih' trivial (fun n hn => gives n (Ground.visits_entry_iff.mpr (Or.inr hn))) n hn
  | passed none rest ih =>
    obtain ⟨m, rfl, -⟩ := rest.exists_obj_get?
    intro n hn
    refine ih ready.rest (fun n hn => gives n ((Ground.visits_passed_iff none).mpr hn)) n ?_
    refine (Ground.visits_passed_iff fun v hv => ?_).mp hn
    exact none v (rest.get?_of_passed ready ▸ hv)
  | @place node out _ _ _ _ _ _ _ _ _ there _ rest ih ih' =>
    obtain ⟨m, rfl, -⟩ := rest.exists_obj_get?
    have gives' := fun n hn => gives n ((Ground.visits_place_iff out there).mpr hn)
    intro n hn
    rcases (Ground.visits_place_iff m (rest.get?_of_place ready there)).mp hn with hn | hn
    · exact ih trivial (fun n hn => gives' n (Or.inl hn)) n hn
    · exact ih' (ready.replace _) (fun n hn => gives' n (Or.inr hn)) n hn

/-- A property that the visitor gives to every node it is shown holds of every node that is visited
afterwards, when it does not depend on what stands at the places of a node. -/
theorem trimmed {p : Json.Members → Prop} (h : Walks visit g s r s') (ready : g.Ready)
    (gives : ∀ n, g.Visits n → ∀ s, ∃ n', (visit n s).1 = .descend n' ∧ p n' ∧
      ∀ key ∈ "$ref" :: places.map (·.1), n'.get? key = n.get? key)
    (keeps : ∀ n k w, k ∈ places.map (·.1) → p n → p (n.replace k w)) :
    ∀ n, (g.after r).Visits n → p n := by
  refine h.throughout ready (fun n hn s => ?_) fun n k _ w hk _ _ hn => keeps n k w hk hn
  obtain ⟨n', on, good⟩ := gives n hn s
  rw [on]
  exact good

/-- No key is repeated where the visitor repeats none. -/
theorem distinct {p : σ → Prop} (h : Walks visit g s r s')
    (good : ∀ n s, (Json.obj n).Distinct → p s →
      (Json.obj (visit n s).1.node).Distinct ∧ p (visit n s).2)
    (hg : g.Distinct) (hs : p s) : r.Distinct ∧ p s' := by
  induction h with
  | idle _ => exact ⟨hg, hs⟩
  | @skip node _ s _ _ met =>
    have := good node s hg hs
    rw [met] at this
    exact this
  | @descend node _ s _ _ _ _ met _ ih =>
    have := good node s hg hs
    rw [met] at this
    exact ih ⟨hg, this.1⟩ this.2
  | part _ ih => exact ih ⟨hg, hg⟩ hs
  | one _ _ ih | several _ ih | list _ ih | map _ ih => exact ih hg hs
  | noItem | noEntry => exact ⟨hg, hs⟩
  | noPlace => exact ⟨hg.2, hs⟩
  | item _ _ ih ih' =>
    obtain ⟨here, others⟩ := List.forall_mem_cons.mp (Json.distinct_arr_iff.mp hg)
    obtain ⟨hr, hs⟩ := ih here hs
    obtain ⟨hrest, hs⟩ := ih' (Json.distinct_arr_iff.mpr others) hs
    refine ⟨Json.distinct_arr_iff.mpr ?_, hs⟩
    exact List.forall_mem_cons.mpr ⟨hr, Json.distinct_arr_iff.mp hrest⟩
  | entry _ rest ih ih' =>
    obtain ⟨nodup, all⟩ := Json.distinct_obj_iff.mp hg
    obtain ⟨here, others⟩ := List.forall_mem_cons.mp all
    obtain ⟨hr, hs⟩ := ih here hs
    obtain ⟨hrest, hs⟩ :=
      ih' (Json.distinct_obj_iff.mpr ⟨(List.nodup_cons.mp nodup).2, others⟩) hs
    obtain ⟨_, same, keys⟩ := rest.exists_entries
    cases same
    refine ⟨Json.distinct_obj_iff.mpr ⟨?_, ?_⟩, hs⟩
    · rw [List.map_cons, keys]
      exact nodup
    · exact List.forall_mem_cons.mpr ⟨hr, (Json.distinct_obj_iff.mp hrest).2⟩
  | passed _ _ ih => exact ih hg hs
  | place there _ _ ih ih' =>
    obtain ⟨hr, hs⟩ := ih (hg.1.get? there) hs
    exact ih' ⟨hg.1, hg.2.replace hr⟩ hs

end Walks

/-! ### The nodes that a walk visits -/

/-- Notes the node it is shown and leaves it as it is. -/
def recorder : Visitor (List Json.Members) := fun node seen => (.descend node, seen ++ [node])

/-- The nodes that a walk over a description visits, in order. -/
def visited (root : Json) : List Json.Members := (walkDocument recorder root []).2

theorem foldl_recorder (shown seen : List Json.Members) :
    shown.foldl (fun s n => (recorder n s).2) seen = seen ++ shown := by
  induction shown generalizing seen with
  | nil => exact (List.append_nil _).symm
  | cons n shown ih =>
    rw [List.foldl_cons, ih]
    exact List.append_assoc seen [n] shown

theorem mem_visited_iff {root : Json} {n : Json.Members} :
    n ∈ visited root ↔ Visits (.part .document) root n := by
  obtain ⟨shown, h⟩ := (walks_walkDocument recorder root []).exists_shows
  have same : visited root = shown := h.last.trans (foldl_recorder shown [])
  rw [same]
  exact ⟨h.sound n, h.all (fun n _ _ => ⟨n, rfl⟩) n⟩

end ToolGateway.Schema
