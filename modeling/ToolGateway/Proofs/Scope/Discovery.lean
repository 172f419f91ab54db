import ToolGateway.Proofs.Scope.Cover
import ToolGateway.Proofs.Tool.Names
import ToolGateway.Scope.Discovery

/-!
# Discovered scopes suffice

The groups of a description are one flat list. Every operation finds its own among them, also one
that falls back on the requirements of the description (`Discovery.group_mem_groups_of_security`,
`Discovery.group_mem_groups_of_extension`), and with either choice every group has a scope that is
asked for (`Discovery.exists_mem_discover`). So what is asked for suffices for every operation, and
it holds no more than it has to (`discover_spec`).
-/

namespace ToolGateway

namespace Discovery

variable {c : Discovery} {d : Document} {op : Operation} {s : String}

/-! ### Groups of security requirements -/

/-- A scheme of the description whose requirements list scopes. -/
def HasScopes (d : Document) (name : String) : Prop :=
  ∃ scheme, (name, scheme) ∈ (d.securitySchemes.getD .empty).entries ∧
    (scheme.getStr? "type" = some "oauth2" ∨ scheme.getStr? "type" = some "openIdConnect")

theorem mem_scopedSchemes_iff {name : String} : name ∈ scopedSchemes d ↔ HasScopes d name := by
  simp [scopedSchemes, HasScopes, isScoped]

/-- None of some requirements is met by everyone. -/
def Binding (requirements : List Json) : Prop :=
  ∀ ms, Json.obj ms ∈ requirements → ms.isEmpty = false

theorem mem_requirementGroups {schemes : List String} {ms : Json.Members} {name text : String}
    {items : List Json} (hs : name ∈ schemes) (hm : (name, .arr items) ∈ ms.entries)
    (ht : .str text ∈ items) : items.filterMap Json.str? ∈ requirementGroups schemes ms := by
  refine List.mem_filter.mpr ⟨List.mem_filterMap.mpr ⟨_, hm, ?_⟩, ?_⟩
  · exact if_pos (List.contains_iff_mem.mpr hs)
  · have : text ∈ items.filterMap Json.str? := List.mem_filterMap.mpr ⟨_, ht, rfl⟩
    simpa using List.ne_nil_of_mem this

theorem mem_securityGroups {schemes : List String} {requirements : List Json} {ms : Json.Members}
    {g : List String} (hb : Binding requirements) (hm : .obj ms ∈ requirements)
    (hg : g ∈ requirementGroups schemes ms) : g ∈ securityGroups schemes requirements := by
  have objects : ∀ ms, ms ∈ requirements.filterMap Json.obj? ↔ .obj ms ∈ requirements := by
    intro ms
    rw [List.mem_filterMap]
    constructor
    · rintro ⟨v, hv, h⟩
      cases v <;> cases h
      exact hv
    · exact fun h => ⟨_, h, rfl⟩
  have some : ¬ (requirements.filterMap Json.obj?).any (·.isEmpty) = true := by
    rw [List.any_eq_true]
    rintro ⟨ms, hms, he⟩
    rw [hb ms ((objects ms).mp hms)] at he
    cases he
  rw [securityGroups, if_neg some]
  exact List.mem_flatMap.mpr ⟨ms, (objects ms).mpr hm, hg⟩

/-- The groups of the requirements that hold for an operation are among those of the description,
whether the operation states them or falls back on the description's. -/
theorem securityGroups_subset (hop : op ∈ Operation.all d) :
    securityGroups (scopedSchemes d) (op.security.getD []) ⊆ allSecurityGroups d := by
  intro g hg
  rw [Operation.security, Operation.document_of_mem_all hop] at hg
  rw [allSecurityGroups, List.mem_append]
  have mem : op.body.getArr? "security" ∈ (Operation.all d).map (·.body.getArr? "security") :=
    List.mem_map_of_mem hop
  cases hown : op.body.getArr? "security" with
  | some own =>
    rw [hown] at hg mem
    exact Or.inl (List.mem_flatMap.mpr ⟨_, mem, hg⟩)
  | none =>
    rw [hown] at hg mem
    right
    rw [if_pos (List.any_eq_true.mpr ⟨_, mem, rfl⟩)]
    exact hg

theorem group_mem_groups_of_security (he : c.extensions = []) (hop : op ∈ Operation.all d)
    (hb : Binding (op.security.getD [])) {ms : Json.Members} (hm : .obj ms ∈ op.security.getD [])
    {name text : String} {items : List Json} (hs : HasScopes d name)
    (hi : (name, .arr items) ∈ ms.entries) (ht : .str text ∈ items) :
    items.filterMap Json.str? ∈ c.groups d := by
  rw [groups, he, List.isEmpty_nil, if_pos rfl]
  apply securityGroups_subset hop
  exact mem_securityGroups hb hm (mem_requirementGroups (mem_scopedSchemes_iff.mpr hs) hi ht)

/-! ### Groups of extensions -/

theorem group_mem_groups_of_extension (hop : op ∈ Operation.all d) {before after : List String}
    {name : String} (he : c.extensions = before ++ name :: after)
    (absent : ∀ n ∈ before, op.extension? n = none) {v : Json} (found : op.extension? name = some v)
    (some : scopesOf v ≠ []) : scopesOf v ∈ c.groups d := by
  have first : c.extensions.findSome? op.extension? = .some v := by
    rw [he, List.findSome?_append, List.findSome?_eq_none_iff.mpr absent, List.findSome?_cons,
      found]
    rfl
  have group : extensionGroup c.extensions op = scopesOf v := by
    rw [extensionGroup, first]
    rfl
  have listed : c.extensions.isEmpty = false := by
    rw [he]
    simp
  rw [groups, listed, if_neg Bool.false_ne_true]
  refine List.mem_filter.mpr ⟨List.mem_map.mpr ⟨op, hop, group⟩, ?_⟩
  simpa using some

/-! ### What is asked for -/

theorem mem_discover_iff : s ∈ c.discover d ↔ (s ∈ match c.choice with
    | .all => Scope.setOf (c.groups d).flatten
    | .greedy => Scope.cover (c.groups d)) ∨ s ∈ c.mandatory :=
  Scope.mem_insertAll

/-- Every group has a scope that is asked for. -/
theorem exists_mem_discover {g : List String} (hg : g ∈ c.groups d) (some : g ≠ []) :
    ∃ s ∈ g, s ∈ c.discover d := by
  simp only [mem_discover_iff]
  cases c.choice with
  | all =>
    obtain ⟨s, hs⟩ := List.exists_mem_of_ne_nil g some
    exact ⟨s, hs, Or.inl (Scope.mem_setOf.mpr (List.mem_flatten.mpr ⟨g, hg, hs⟩))⟩
  | greedy =>
    obtain ⟨s, hs, found⟩ := Scope.exists_mem_cover hg some
    exact ⟨s, hs, Or.inl found⟩

/-- What is asked for is of a group, or it is asked for in any case. -/
theorem of_mem_discover (h : s ∈ c.discover d) : s ∈ c.mandatory ∨ ∃ g ∈ c.groups d, s ∈ g := by
  rw [mem_discover_iff] at h
  rcases h with h | h
  · right
    cases hc : c.choice with
    | all =>
      rw [hc, Scope.mem_setOf, List.mem_flatten] at h
      exact h
    | greedy =>
      rw [hc] at h
      exact Scope.exists_group_of_mem_cover h
  · exact Or.inl h

/-- What is asked for suffices for every operation of a description, and is no more than that. -/
structure Suffices (c : Discovery) (d : Document) : Prop where
  /-- Without extensions: of every requirement of an operation, unless there is one that everyone
  meets, each scheme with scopes has one that is asked for. -/
  security : c.extensions = [] → ∀ op ∈ Operation.all d, Binding (op.security.getD []) →
    ∀ ms, .obj ms ∈ op.security.getD [] → ∀ name items, (name, .arr items) ∈ ms.entries →
      HasScopes d name → (∃ text, .str text ∈ items) →
        ∃ text, .str text ∈ items ∧ text ∈ c.discover d
  /-- With extensions: the first one of an operation has a scope that is asked for. -/
  extension : ∀ op ∈ Operation.all d, ∀ before name after v,
    c.extensions = before ++ name :: after →
    (∀ n ∈ before, op.extension? n = none) → op.extension? name = some v → scopesOf v ≠ [] →
      ∃ s ∈ scopesOf v, s ∈ c.discover d
  mandatory : c.mandatory ⊆ c.discover d
  /-- Nothing else is asked for. -/
  only : ∀ s ∈ c.discover d, s ∈ c.mandatory ∨ ∃ g ∈ c.groups d, s ∈ g
  /-- With the small cover nothing is asked for that is not asked for with all scopes. -/
  fewer : { c with choice := .greedy }.discover d ⊆ { c with choice := .all }.discover d

/-- For every description and every way to discover scopes, what is discovered suffices. -/
theorem discover_spec (c : Discovery) (d : Document) : Suffices c d where
  security := by
    rintro he op hop hb ms hm name items hi hs ⟨text, ht⟩
    have group := group_mem_groups_of_security he hop hb hm hs hi ht
    have some : items.filterMap Json.str? ≠ [] :=
      List.ne_nil_of_mem (List.mem_filterMap.mpr ⟨_, ht, rfl⟩)
    obtain ⟨s, mem, found⟩ := exists_mem_discover group some
    obtain ⟨v, hv, h⟩ := List.mem_filterMap.mp mem
    cases v <;> cases h
    exact ⟨s, hv, found⟩
  extension := by
    intro op hop before name after v he absent found some
    exact exists_mem_discover (group_mem_groups_of_extension hop he absent found some) some
  mandatory := by
    intro s hs
    exact mem_discover_iff.mpr (Or.inr hs)
  only := fun s hs => of_mem_discover hs
  fewer := by
    intro s hs
    rcases of_mem_discover hs with h | ⟨g, hg, h⟩
    · exact mem_discover_iff.mpr (Or.inr h)
    · exact mem_discover_iff.mpr (Or.inl (Scope.mem_setOf.mpr (List.mem_flatten.mpr ⟨g, hg, h⟩)))

end Discovery

end ToolGateway
