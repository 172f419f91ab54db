import Mathlib.Logic.Relation
import ToolGateway.Proofs.Json.Distinct
import ToolGateway.Schema.WalkDocument

/-!
# What a walk visits

A walk takes the values it comes to for something: the whole for a description, what stands under
`paths` for path items, what stands under `schema` for a schema. Such a role says where the walk
goes on below a value, and so which nodes it visits (`Visits`). What the walk itself does is a run
over one ground after another (`Walks`, `walks_walkDocument`): it visits a node, and then goes over
the places of that node one by one.
-/

namespace ToolGateway.Schema

variable {σ : Type}

/-! ### Roles -/

/-- A part of a description that is no schema itself. -/
inductive Part where
  | document
  | components
  | pathItem
  | operation
  | holder
  | media

/-- What a walk takes a value for. What stands under a keyword for one subschema may be a list of
them. -/
inductive Role where
  | schema
  | subschema
  | part (p : Part)
  | list (role : Role)
  | map (role : Role)

/-- The keywords of a schema below which the walk goes on, in its order. -/
def places : List (String × Role) :=
  singleKeywords.map (·, .subschema) ++ mapKeywords.map (·, .map .schema) ++
    listKeywords.map (·, .list .schema)

/-- The members of a part below which the walk goes on, in its order. -/
def Part.places : Part → List (String × Role)
  | document => [("paths", .map (.part .pathItem)), ("components", .part .components)]
  | components => ("schemas", .map .schema) :: holderSections.map (·, .map (.part .holder))
  | pathItem => ("parameters", .list (.part .holder)) :: Document.methods.map (·, .part .operation)
  | operation => [("parameters", .list (.part .holder)), ("requestBody", .part .holder),
      ("responses", .map (.part .holder))]
  | holder => [("schema", .schema), ("content", .map (.part .media)),
      ("headers", .map (.part .holder))]
  | media => [("schema", .schema)]

/-- A walk over a value in a role visits a node, if it is told to go on everywhere. -/
inductive Visits : Role → Json → Json.Members → Prop
  | here {node : Json.Members} (own : node.contains "$ref" = false) :
      Visits .schema (.obj node) node
  | under {node n : Json.Members} {k : String} {role : Role} {v : Json}
      (own : node.contains "$ref" = false) (place : (k, role) ∈ places)
      (there : node.get? k = some v) (inner : Visits role v n) : Visits .schema (.obj node) n
  | part {p : Part} {node n : Json.Members} {k : String} {role : Role} {v : Json}
      (place : (k, role) ∈ p.places) (there : node.get? k = some v) (inner : Visits role v n) :
      Visits (.part p) (.obj node) n
  | one {v : Json} {n : Json.Members} (inner : Visits .schema v n) : Visits .subschema v n
  | several {items : List Json} {v : Json} {n : Json.Members} (mem : v ∈ items)
      (inner : Visits .schema v n) : Visits .subschema (.arr items) n
  | item {role : Role} {items : List Json} {v : Json} {n : Json.Members} (mem : v ∈ items)
      (inner : Visits role v n) : Visits (.list role) (.arr items) n
  | entry {role : Role} {entries : List (String × Json)} {e : String × Json} {n : Json.Members}
      (mem : e ∈ entries) (inner : Visits role e.2 n) : Visits (.map role) (.obj ⟨entries⟩) n

/-- What a walk goes over: a value, the items of an array, the entries of an object, or the places
of a node, whose results are put into another object. -/
inductive Ground where
  | value (role : Role) (v : Json)
  | items (role : Role) (items : List Json)
  | entries (role : Role) (entries : List (String × Json))
  | places (node : Json.Members) (places : List (String × Role)) (out : Json.Members)

namespace Ground

/-- The nodes that are visited on a ground. -/
def Visits : Ground → Json.Members → Prop
  | value role v, n => Schema.Visits role v n
  | items role vs, n => ∃ v ∈ vs, Schema.Visits role v n
  | entries role es, n => ∃ e ∈ es, Schema.Visits role e.2 n
  | places node ps _, n => ∃ k role v, (k, role) ∈ ps ∧ node.get? k = some v ∧
      Schema.Visits role v n

/-- What a ground is before the walk. -/
def before : Ground → Json
  | value _ v => v
  | items _ vs => .arr vs
  | entries _ es => .obj ⟨es⟩
  | places _ _ out => .obj out

end Ground

/-! ### Walks -/

/-- A walk over a ground leads from one state to another one. Where nothing is visited it does
nothing. -/
inductive Walks (visit : Visitor σ) : Ground → σ → Json → σ → Prop
  | idle {role : Role} {v : Json} {s : σ} (none : ∀ n, ¬Visits role v n) :
      Walks visit (.value role v) s v s
  | skip {node out : Json.Members} {s s' : σ} (own : node.contains "$ref" = false)
      (met : visit node s = (.skip out, s')) :
      Walks visit (.value .schema (.obj node)) s (.obj out) s'
  | descend {node out : Json.Members} {s s₁ s' : σ} {r : Json}
      (own : node.contains "$ref" = false) (met : visit node s = (.descend out, s₁))
      (run : Walks visit (.places node places out) s₁ r s') :
      Walks visit (.value .schema (.obj node)) s r s'
  | part {p : Part} {node : Json.Members} {s s' : σ} {r : Json}
      (run : Walks visit (.places node p.places node) s r s') :
      Walks visit (.value (.part p) (.obj node)) s r s'
  | one {v : Json} {s s' : σ} {r : Json} (flat : ∀ items, v ≠ .arr items)
      (run : Walks visit (.value .schema v) s r s') : Walks visit (.value .subschema v) s r s'
  | several {items : List Json} {s s' : σ} {r : Json}
      (run : Walks visit (.items .schema items) s r s') :
      Walks visit (.value .subschema (.arr items)) s r s'
  | list {role : Role} {items : List Json} {s s' : σ} {r : Json}
      (run : Walks visit (.items role items) s r s') :
      Walks visit (.value (.list role) (.arr items)) s r s'
  | map {role : Role} {entries : List (String × Json)} {s s' : σ} {r : Json}
      (run : Walks visit (.entries role entries) s r s') :
      Walks visit (.value (.map role) (.obj ⟨entries⟩)) s r s'
  | noItem {role : Role} {s : σ} : Walks visit (.items role []) s (.arr []) s
  | item {role : Role} {v r : Json} {items results : List Json} {s s₁ s' : σ}
      (run : Walks visit (.value role v) s r s₁)
      (rest : Walks visit (.items role items) s₁ (.arr results) s') :
      Walks visit (.items role (v :: items)) s (.arr (r :: results)) s'
  | noEntry {role : Role} {s : σ} : Walks visit (.entries role []) s (.obj ⟨[]⟩) s
  | entry {role : Role} {k : String} {v r : Json} {entries results : List (String × Json)}
      {s s₁ s' : σ} (run : Walks visit (.value role v) s r s₁)
      (rest : Walks visit (.entries role entries) s₁ (.obj ⟨results⟩) s') :
      Walks visit (.entries role ((k, v) :: entries)) s (.obj ⟨(k, r) :: results⟩) s'
  | noPlace {node out : Json.Members} {s : σ} : Walks visit (.places node [] out) s (.obj out) s
  | passed {node out : Json.Members} {k : String} {role : Role} {ps : List (String × Role)}
      {s s' : σ} {r : Json} (none : ∀ v, node.get? k = some v → ∀ n, ¬Visits role v n)
      (rest : Walks visit (.places node ps out) s r s') :
      Walks visit (.places node ((k, role) :: ps) out) s r s'
  | place {node out : Json.Members} {k : String} {role : Role} {ps : List (String × Role)}
      {v w r : Json} {s s₁ s' : σ} (there : node.get? k = some v)
      (run : Walks visit (.value role v) s w s₁)
      (rest : Walks visit (.places node ps (out.replace k w)) s₁ r s') :
      Walks visit (.places node ((k, role) :: ps) out) s r s'

/-! ### Values below which nothing is visited -/

theorem not_visits_schema {v : Json} (h : ∀ node, v = .obj node → node.contains "$ref" = true)
    (n : Json.Members) : ¬Visits .schema v n := by
  rintro (⟨own⟩ | ⟨own, -, -, -⟩) <;>
  · rw [h _ rfl] at own
    cases own

theorem not_visits_part {p : Part} {v : Json} (h : ∀ node, v ≠ .obj node) (n : Json.Members) :
    ¬Visits (.part p) v n := by
  rintro ⟨⟩
  exact h _ rfl

theorem not_visits_map {role : Role} {v : Json} (h : ∀ node, v ≠ .obj node) (n : Json.Members) :
    ¬Visits (.map role) v n := by
  rintro ⟨⟩
  exact h _ rfl

theorem not_visits_list {role : Role} {v : Json} (h : ∀ items, v ≠ .arr items)
    (n : Json.Members) : ¬Visits (.list role) v n := by
  rintro ⟨⟩
  exact h _ rfl

/-! ### The walk over a schema -/

section

variable (visit : Visitor σ)

mutual

theorem walks_walk (v : Json) (s : σ) :
    Walks visit (.value .schema v) s (walk visit v s).1 (walk visit v s).2 := by
  match v with
  | .obj node =>
    rw [walk]
    split
    · next own => exact .idle (not_visits_schema fun _ h => by cases h; exact own)
    · next own =>
      have own : node.contains "$ref" = false := by simpa using own
      split
      · next met => exact .skip own met
      · next out s₁ met =>
        refine .descend own met ?_
        rw [places, List.append_assoc]
        refine walks_walkSingles node singleKeywords out s₁ ?_
        refine walks_walkMaps node mapKeywords _ _ ?_
        rw [← List.append_nil (listKeywords.map _)]
        exact walks_walkLists node listKeywords _ _ .noPlace
  | .null | .bool _ | .int _ | .float _ | .str _ | .arr _ =>
    rw [walk]
    · exact .idle (not_visits_schema nofun)
    · exact nofun
termination_by (sizeOf v, 0)
decreasing_by all_goals simp_wf; omega

theorem walks_walkSingles (node : Json.Members) (keywords : List String) (out : Json.Members)
    (s : σ) {ps : List (String × Role)} {r : Json} {s' : σ}
    (rest : Walks visit (.places node ps (walkSingles visit node keywords out s).1)
      (walkSingles visit node keywords out s).2 r s') :
    Walks visit (.places node (keywords.map (·, .subschema) ++ ps) out) s r s' := by
  match keywords with
  | [] =>
    rw [walkSingles] at rest
    exact rest
  | keyword :: keywords =>
    rw [walkSingles.eq_def] at rest
    dsimp only at rest
    split at rest
    · next items h =>
      exact .place h (.several (walks_walkItems items s)) (walks_walkSingles node keywords _ _ rest)
    · next child flat h =>
      exact .place h (.one flat (walks_walk child s)) (walks_walkSingles node keywords _ _ rest)
    · next h =>
      refine .passed (fun v hv => ?_) (walks_walkSingles node keywords _ _ rest)
      rw [h] at hv
      cases hv
termination_by (sizeOf node, keywords.length + 1)
decreasing_by
  · exact Prod.Lex.left _ _ (sizeOf_items_lt ‹_›)
  · exact Prod.Lex.right _ (by simp)
  · exact Prod.Lex.left _ _ (Dict.sizeOf_get?_lt ‹_›)
  · exact Prod.Lex.right _ (by simp)
  · exact Prod.Lex.right _ (by simp)

theorem walks_walkMaps (node : Json.Members) (keywords : List String) (out : Json.Members)
    (s : σ) {ps : List (String × Role)} {r : Json} {s' : σ}
    (rest : Walks visit (.places node ps (walkMaps visit node keywords out s).1)
      (walkMaps visit node keywords out s).2 r s') :
    Walks visit (.places node (keywords.map (·, .map .schema) ++ ps) out) s r s' := by
  match keywords with
  | [] =>
    rw [walkMaps] at rest
    exact rest
  | keyword :: keywords =>
    rw [walkMaps.eq_def] at rest
    dsimp only at rest
    split at rest
    · next children h =>
      exact .place h (.map (walks_walkEntries children s)) (walks_walkMaps node keywords _ _ rest)
    · next h =>
      refine .passed (fun v hv => not_visits_map fun d hd => ?_)
        (walks_walkMaps node keywords _ _ rest)
      exact h d.entries (hd ▸ hv)
termination_by (sizeOf node, keywords.length + 1)
decreasing_by
  · exact Prod.Lex.left _ _ (sizeOf_children_lt ‹_›)
  · exact Prod.Lex.right _ (by simp)
  · exact Prod.Lex.right _ (by simp)

theorem walks_walkLists (node : Json.Members) (keywords : List String) (out : Json.Members)
    (s : σ) {ps : List (String × Role)} {r : Json} {s' : σ}
    (rest : Walks visit (.places node ps (walkLists visit node keywords out s).1)
      (walkLists visit node keywords out s).2 r s') :
    Walks visit (.places node (keywords.map (·, .list .schema) ++ ps) out) s r s' := by
  match keywords with
  | [] =>
    rw [walkLists] at rest
    exact rest
  | keyword :: keywords =>
    rw [walkLists.eq_def] at rest
    dsimp only at rest
    split at rest
    · next items h =>
      exact .place h (.list (walks_walkItems items s)) (walks_walkLists node keywords _ _ rest)
    · next h =>
      refine .passed (fun v hv => not_visits_list fun items hi => ?_)
        (walks_walkLists node keywords _ _ rest)
      exact h items (hi ▸ hv)
termination_by (sizeOf node, keywords.length + 1)
decreasing_by
  · exact Prod.Lex.left _ _ (sizeOf_items_lt ‹_›)
  · exact Prod.Lex.right _ (by simp)
  · exact Prod.Lex.right _ (by simp)

theorem walks_walkItems (items : List Json) (s : σ) :
    Walks visit (.items .schema items) s (.arr (walkItems visit items s).1)
      (walkItems visit items s).2 := by
  match items with
  | [] =>
    rw [walkItems]
    exact .noItem
  | item :: rest =>
    rw [walkItems]
    exact .item (walks_walk item s) (walks_walkItems rest _)
termination_by (sizeOf items, 0)
decreasing_by all_goals simp_wf; omega

theorem walks_walkEntries (entries : List (String × Json)) (s : σ) :
    Walks visit (.entries .schema entries) s (.obj ⟨(walkEntries visit entries s).1⟩)
      (walkEntries visit entries s).2 := by
  match entries with
  | [] =>
    rw [walkEntries]
    exact .noEntry
  | (name, schema) :: rest =>
    rw [walkEntries]
    exact .entry (walks_walk schema s) (walks_walkEntries rest _)
termination_by (sizeOf entries, 0)
decreasing_by all_goals simp_wf; omega

end

/-! ### The walk over a description -/

variable {visit}

/-- Two keys of a node are walked over independently of each other. -/
theorem get?_overMember_of_ne {f : Json → σ → Json × σ} {k key : String} (h : k ≠ key)
    (out : Json.Members) (s : σ) : (overMember k f out s).1.get? key = out.get? key := by
  unfold overMember
  split
  · exact Dict.get?_replace_of_ne h
  · rfl

/-- A place is walked over where what stands there is still as it was. -/
theorem walks_overMember {f : Json → σ → Json × σ} {role : Role} {node out : Json.Members}
    {k : String} {ps : List (String × Role)} {s s' : σ} {r : Json}
    (run : ∀ v s, node.get? k = some v → Walks visit (.value role v) s (f v s).1 (f v s).2)
    (same : out.get? k = node.get? k)
    (rest : Walks visit (.places node ps (overMember k f out s).1) (overMember k f out s).2 r s') :
    Walks visit (.places node ((k, role) :: ps) out) s r s' := by
  unfold overMember at rest
  rw [same] at rest
  cases h : node.get? k with
  | none =>
    rw [h] at rest
    refine .passed (fun v hv => ?_) rest
    rw [h] at hv
    cases hv
  | some v =>
    rw [h] at rest
    exact .place h (run v s h) rest

theorem walks_overObject {f : Json.Members → σ → Json.Members × σ} {p : Part} (v : Json) (s : σ)
    (run : ∀ node s, Walks visit (.places node p.places node) s (.obj (f node s).1) (f node s).2) :
    Walks visit (.value (.part p) v) s (overObject f v s).1 (overObject f v s).2 := by
  unfold overObject
  split
  · exact .part (run _ s)
  · next h => exact .idle (not_visits_part h)

theorem walks_overItems {f : Json → σ → Json × σ} {role : Role} (v : Json) (s : σ)
    (run : ∀ v s, Walks visit (.value role v) s (f v s).1 (f v s).2) :
    Walks visit (.value (.list role) v) s (overItems f v s).1 (overItems f v s).2 := by
  have each : ∀ items s, Walks visit (.items role items) s (.arr (overEach f items s).1)
      (overEach f items s).2 := by
    intro items
    induction items with
    | nil => exact fun _ => .noItem
    | cons v items ih => exact fun s => .item (run v s) (ih _)
  unfold overItems
  split
  · exact .list (each _ s)
  · next h => exact .idle (not_visits_list h)

theorem walks_overValues {f : Json → σ → Json × σ} {role : Role} (v : Json) (s : σ)
    (run : ∀ v s, Walks visit (.value role v) s (f v s).1 (f v s).2) :
    Walks visit (.value (.map role) v) s (overValues f v s).1 (overValues f v s).2 := by
  have each : ∀ entries s, Walks visit (.entries role entries) s
      (.obj ⟨(overEachEntry f entries s).1⟩) (overEachEntry f entries s).2 := by
    intro entries
    induction entries with
    | nil => exact fun _ => .noEntry
    | cons e entries ih => exact fun s => .entry (run e.2 s) (ih _)
  unfold overValues
  split
  · exact .map (each _ s)
  · next h => exact .idle (not_visits_map fun node hn => h node.entries hn)

/-- Keys that are gone through one after the other are walked over where what stands under them is
still as it was. -/
theorem walks_keys {f : Json → σ → Json × σ} {role : Role}
    {g : List String → Json.Members → σ → Json.Members × σ}
    (none : ∀ out s, g [] out s = (out, s))
    (next : ∀ k ks out s,
      g (k :: ks) out s = g ks (overMember k f out s).1 (overMember k f out s).2)
    (run : ∀ v s, Walks visit (.value role v) s (f v s).1 (f v s).2) (node : Json.Members)
    {ks : List String} (nodup : ks.Nodup) (out : Json.Members) (s : σ)
    (same : ∀ k ∈ ks, out.get? k = node.get? k) :
    Walks visit (.places node (ks.map (·, role)) out) s (.obj (g ks out s).1)
      (g ks out s).2 := by
  induction ks generalizing out s with
  | nil =>
    rw [none]
    exact .noPlace
  | cons k ks ih =>
    obtain ⟨fresh, nodup⟩ := List.nodup_cons.mp nodup
    obtain ⟨here, others⟩ := List.forall_mem_cons.mp same
    rw [next]
    refine walks_overMember (fun v s _ => run v s) here (ih nodup _ _ fun key hk => ?_)
    have ne : k ≠ key := fun h => fresh (h ▸ hk)
    rw [get?_overMember_of_ne ne, others key hk]

variable (visit)

theorem walks_media (v : Json) (s : σ) :
    Walks visit (.value (.part .media) v) s
      (overObject (overMember "schema" (walk visit)) v s).1
      (overObject (overMember "schema" (walk visit)) v s).2 :=
  walks_overObject v s fun _ _ =>
    walks_overMember (fun v s _ => walks_walk visit v s) rfl .noPlace

mutual

theorem walks_walkHolder (v : Json) (s : σ) :
    Walks visit (.value (.part .holder) v) s (walkHolder visit v s).1
      (walkHolder visit v s).2 := by
  match v with
  | .obj node =>
    rw [walkHolder.eq_def]
    dsimp only
    refine .part ?_
    refine walks_overMember (f := walk visit) (fun v s _ => walks_walk visit v s) rfl ?_
    refine walks_overMember
      (f := overValues (overObject (overMember "schema" (walk visit))))
      (fun v s _ => walks_overValues v s (walks_media visit))
      (get?_overMember_of_ne (by decide) _ _) ?_
    split
    · next headers h => exact .place h (.map (walks_walkHolders headers _)) .noPlace
    · next h =>
      exact .passed (fun v hv => not_visits_map fun d hd => h d.entries (hd ▸ hv)) .noPlace
  | .null | .bool _ | .int _ | .float _ | .str _ | .arr _ =>
    rw [walkHolder]
    · exact .idle (not_visits_part nofun)
    · exact nofun
termination_by sizeOf v
decreasing_by
  have := Dict.sizeOf_get?_lt ‹_›
  simp only [Json.obj.sizeOf_spec, Dict.mk.sizeOf_spec] at *
  omega

theorem walks_walkHolders (entries : List (String × Json)) (s : σ) :
    Walks visit (.entries (.part .holder) entries) s (.obj ⟨(walkHolders visit entries s).1⟩)
      (walkHolders visit entries s).2 := by
  match entries with
  | [] =>
    rw [walkHolders]
    exact .noEntry
  | (name, holder) :: rest =>
    rw [walkHolders]
    exact .entry (walks_walkHolder holder s) (walks_walkHolders rest _)
termination_by sizeOf entries

end

theorem walks_walkOperation (v : Json) (s : σ) :
    Walks visit (.value (.part .operation) v) s (walkOperation visit v s).1
      (walkOperation visit v s).2 := by
  refine walks_overObject v s fun node s => ?_
  refine walks_overMember (f := overItems (walkHolder visit))
    (fun v s _ => walks_overItems v s (walks_walkHolder visit)) rfl ?_
  refine walks_overMember (f := walkHolder visit) (fun v s _ => walks_walkHolder visit v s)
    (get?_overMember_of_ne (by decide) _ _) ?_
  refine walks_overMember (f := overValues (walkHolder visit))
    (fun v s _ => walks_overValues v s (walks_walkHolder visit)) ?_ .noPlace
  rw [get?_overMember_of_ne (by decide), get?_overMember_of_ne (by decide)]

theorem walks_walkPathItem (v : Json) (s : σ) :
    Walks visit (.value (.part .pathItem) v) s (walkPathItem visit v s).1
      (walkPathItem visit v s).2 := by
  refine walks_overObject v s fun node s => ?_
  refine walks_overMember (f := overItems (walkHolder visit))
    (fun v s _ => walks_overItems v s (walks_walkHolder visit)) rfl ?_
  refine walks_keys (g := walkMethods visit) (fun _ _ => rfl) (fun _ _ _ _ => rfl)
    (walks_walkOperation visit) node (by decide) _ _ fun k hk => get?_overMember_of_ne ?_ _ _
  rintro rfl
  exact absurd hk (by decide)

theorem walks_walkComponents (v : Json) (s : σ) :
    Walks visit (.value (.part .components) v) s (walkComponents visit v s).1
      (walkComponents visit v s).2 := by
  refine walks_overObject v s fun node s => ?_
  refine walks_overMember (f := overValues (walk visit))
    (fun v s _ => walks_overValues v s (walks_walk visit)) rfl ?_
  refine walks_keys (g := walkSections visit) (fun _ _ => rfl) (fun _ _ _ _ => rfl)
    (fun v s => walks_overValues v s (walks_walkHolder visit)) node
    (by decide) _ _ fun k hk => get?_overMember_of_ne ?_ _ _
  rintro rfl
  exact absurd hk (by decide)

/-- A walk over a description goes over it in the role of a document. -/
theorem walks_walkDocument (v : Json) (s : σ) :
    Walks visit (.value (.part .document) v) s (walkDocument visit v s).1
      (walkDocument visit v s).2 := by
  refine walks_overObject v s fun node s => ?_
  refine walks_overMember (f := overValues (walkPathItem visit))
    (fun v s _ => walks_overValues v s (walks_walkPathItem visit)) rfl ?_
  exact walks_overMember (f := walkComponents visit)
    (fun v s _ => walks_walkComponents visit v s) (get?_overMember_of_ne (by decide) _ _) .noPlace

end

end ToolGateway.Schema
