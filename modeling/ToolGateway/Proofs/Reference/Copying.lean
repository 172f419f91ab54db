import Mathlib.Logic.Relation
import ToolGateway.Proofs.Except
import ToolGateway.Proofs.Json.Distinct
import ToolGateway.Proofs.Reference.Run

/-!
# What an expansion copies

An expansion makes nothing up. Whatever it decides about references, and whether it comes to an end
or runs out of fuel, its result is a copy in which each reference was replaced by a copy of what
some target of the same key points to, or by the empty object (`copies_expand`). So each member and
each item of the result was copied from a member or an item of what stands in the documents, at the
value itself or behind references (`Copies.traced`). The other way round, an object keeps its
members unless it was replaced by something that is no object (`Copies.get?_obj`), so a description
keeps its version or has none any more (`Document.version_resolve`).
-/

namespace ToolGateway

/-- What may come of a task when each reference is replaced by a copy of what a target of its key
points to, or by the empty object. The members beside a reference are set over what replaced it when
that is an object. -/
inductive Copies (files : Files) (l : Library) : Task → Json → Prop
  | leaf {source : Source} {v : Json} (flat : ∀ items, v ≠ .arr items)
      (plain : ∀ members, v ≠ .obj members) : Copies files l (.value source v) v
  | array {source : Source} {items : List Json} {r : Json}
      (inner : Copies files l (.items source items) r) :
      Copies files l (.value source (.arr items)) r
  | object {source : Source} {members : List (String × Json)} {r : Json}
      (plain : Json.referenceOf? members = none)
      (inner : Copies files l (.members source members) r) :
      Copies files l (.value source (.obj ⟨members⟩)) r
  | overlaid {source : Source} {members : List (String × Json)} {text : String}
      {target : Json.Members} {r : Json} (found : Json.referenceOf? members = some text)
      (inner : Copies files l (.reference source text) (.obj target))
      (rest : Copies files l (.beside source members target) r) :
      Copies files l (.value source (.obj ⟨members⟩)) r
  | replaced {source : Source} {members : List (String × Json)} {text : String} {r : Json}
      (found : Json.referenceOf? members = some text)
      (inner : Copies files l (.reference source text) r) (other : ∀ target, r ≠ .obj target) :
      Copies files l (.value source (.obj ⟨members⟩)) r
  | noItem {source : Source} : Copies files l (.items source []) (.arr [])
  | item {source : Source} {v r : Json} {items results : List Json}
      (inner : Copies files l (.value source v) r)
      (rest : Copies files l (.items source items) (.arr results)) :
      Copies files l (.items source (v :: items)) (.arr (r :: results))
  | noMember {source : Source} : Copies files l (.members source []) (.obj ⟨[]⟩)
  | member {source : Source} {k : String} {v r : Json} {members results : List (String × Json)}
      (inner : Copies files l (.value source v) r)
      (rest : Copies files l (.members source members) (.obj ⟨results⟩)) :
      Copies files l (.members source ((k, v) :: members)) (.obj ⟨(k, r) :: results⟩)
  | nothingBeside {source : Source} {target : Json.Members} :
      Copies files l (.beside source [] target) (.obj target)
  | skipped {source : Source} {v r : Json} {members : List (String × Json)} {target : Json.Members}
      (rest : Copies files l (.beside source members target) r) :
      Copies files l (.beside source (("$ref", v) :: members) target) r
  | set {source : Source} {k : String} {v r r' : Json} {members : List (String × Json)}
      {target : Json.Members} (other : k ≠ "$ref") (inner : Copies files l (.value source v) r)
      (rest : Copies files l (.beside source members (target.insert k r)) r') :
      Copies files l (.beside source ((k, v) :: members) target) r'
  | cut {source : Source} {text : String} : Copies files l (.reference source text) Expander.nothing
  | followed {source source' : Source} {text : String} {t u : Target} {v r : Json}
      (good : Target.parse files source text = .ok t) (same : u.key = t.key)
      (present : l.find? u = some (source', v)) (inner : Copies files l (.value source' v) r) :
      Copies files l (.reference source text) r

namespace Expander

variable {x : Expander} {put : Target → String → Expansion → Json × Expansion} {source : Source}

/-! ### Expansions copy -/

/-- What may replace a reference to a key. -/
def Stands (x : Expander) (key : String) (r : Json) : Prop :=
  r = nothing ∨ ∃ u source v, u.key = key ∧ x.library.find? u = some (source, v) ∧
    Copies x.files x.library (.value source v) r

/-- What is known of a key may replace a reference to it. -/
def Copied (x : Expander) (s : Expansion) : Prop := ∀ e ∈ s.done, x.Stands e.1 e.2

/-- `put` gives what may replace a reference to the target. -/
def Supports (x : Expander) (put : Target → String → Expansion → Json × Expansion) : Prop :=
  ∀ t text s, x.Copied s → x.Stands t.key (put t text s).1 ∧ x.Copied (put t text s).2

theorem Stands.copies {text : String} {t : Target} {r : Json} (h : x.Stands t.key r)
    (good : Target.parse x.files source text = .ok t) :
    Copies x.files x.library (.reference source text) r := by
  rcases h with rfl | ⟨u, source', v, same, present, inner⟩
  · exact .cut
  · exact .followed good same present inner

theorem copies_replace (hput : x.Supports put) (source : Source) (text : String) {s : Expansion}
    (hs : x.Copied s) :
    Copies x.files x.library (.reference source text) (x.replace put source text s).1 ∧
      x.Copied (x.replace put source text s).2 := by
  unfold replace
  cases good : Target.parse x.files source text with
  | error e => exact ⟨.cut, hs⟩
  | ok t =>
    dsimp only
    cases step : x.step s t.key with
    | cut => exact ⟨.cut, hs⟩
    | below =>
      obtain ⟨stands, hs⟩ := hput t text (visit t.key s) hs
      exact ⟨stands.copies good, hs⟩
    | known v =>
      obtain ⟨-, found⟩ := taken step
      obtain ⟨before, after, same, -⟩ := List.lookup_eq_some_iff.mp found
      have mem : (t.key, v) ∈ s.done := by simp [same]
      exact ⟨(hs _ mem).copies good, hs⟩
    | enter =>
      obtain ⟨stands, hs⟩ := hput t text (x.enter t.key s) hs
      exact ⟨stands.copies good, List.forall_mem_cons.mpr ⟨stands, hs⟩⟩

mutual

theorem copies_expandWith (hput : x.Supports put) : ∀ (v : Json) {s : Expansion}, x.Copied s →
    Copies x.files x.library (.value source v) (expandWith x put source v s).1 ∧
      x.Copied (expandWith x put source v s).2
  | .obj ⟨members⟩, s, hs => by
    rw [expandWith]
    cases found : Json.referenceOf? members with
    | none =>
      obtain ⟨copies, hs⟩ := copies_expandMembers hput members hs
      exact ⟨.object found copies, hs⟩
    | some text =>
      obtain ⟨copies, after⟩ := copies_replace hput source text hs
      dsimp only
      split
      · next target s₁ he =>
        rw [he] at copies after
        obtain ⟨rest, hs⟩ := copies_overlay hput members after
        exact ⟨.overlaid found copies rest, hs⟩
      · next other =>
        exact ⟨.replaced found copies fun target he => other target _ (Prod.ext he rfl), after⟩
  | .arr items, s, hs => by
    obtain ⟨copies, hs⟩ := copies_expandItems hput items hs
    exact ⟨.array copies, hs⟩
  | .null, s, hs | .bool _, s, hs | .int _, s, hs | .float _, s, hs | .str _, s, hs =>
    ⟨.leaf (by simp) (by simp), hs⟩

theorem copies_expandItems (hput : x.Supports put) : ∀ (items : List Json) {s : Expansion},
    x.Copied s → Copies x.files x.library (.items source items)
      (.arr (expandItems x put source items s).1) ∧ x.Copied (expandItems x put source items s).2
  | [], s, hs => ⟨.noItem, hs⟩
  | v :: items, s, hs => by
    obtain ⟨inner, hs⟩ := copies_expandWith hput v hs
    obtain ⟨rest, hs⟩ := copies_expandItems hput items hs
    exact ⟨.item inner rest, hs⟩

theorem copies_expandMembers (hput : x.Supports put) :
    ∀ (members : List (String × Json)) {s : Expansion}, x.Copied s →
    Copies x.files x.library (.members source members)
      (.obj ⟨(expandMembers x put source members s).1⟩) ∧
      x.Copied (expandMembers x put source members s).2
  | [], s, hs => ⟨.noMember, hs⟩
  | (k, v) :: members, s, hs => by
    obtain ⟨inner, hs⟩ := copies_expandWith hput v hs
    obtain ⟨rest, hs⟩ := copies_expandMembers hput members hs
    exact ⟨.member inner rest, hs⟩

theorem copies_overlay (hput : x.Supports put) :
    ∀ (members : List (String × Json)) {target : Json.Members} {s : Expansion}, x.Copied s →
    Copies x.files x.library (.beside source members target)
      (.obj (overlay x put source members target s).1) ∧
      x.Copied (overlay x put source members target s).2
  | [], target, s, hs => ⟨.nothingBeside, hs⟩
  | (k, v) :: members, target, s, hs => by
    rw [overlay]
    by_cases hk : k = "$ref"
    · rw [if_pos hk, hk]
      obtain ⟨rest, hs⟩ := copies_overlay hput members hs
      exact ⟨.skipped rest, hs⟩
    · rw [if_neg hk]
      obtain ⟨inner, hs⟩ := copies_expandWith hput v hs
      obtain ⟨rest, hs⟩ := copies_overlay hput members hs
      exact ⟨.set hk inner rest, hs⟩

end

/-- Whatever the fuel, a target is replaced by a copy of what it points to. -/
theorem supports_inline (x : Expander) (n : Nat) : x.Supports (x.inline n) := by
  induction n with
  | zero =>
    intro t text s hs
    unfold inline
    split
    · exact ⟨Or.inl rfl, hs⟩
    · exact ⟨Or.inl rfl, hs⟩
    · next hz => cases hz
  | succ n ih =>
    intro t text s hs
    unfold inline
    split
    · exact ⟨Or.inl rfl, hs⟩
    · next hz => cases hz
    · next source v fuel present hn =>
      cases hn
      obtain ⟨copies, hs⟩ : Copies x.files x.library (.value source v) _ ∧ _ :=
        copies_expandWith ih v hs
      exact ⟨Or.inr ⟨t, source, v, rfl, present, copies⟩, hs⟩

theorem copies_expand (x : Expander) (n : Nat) (source : Source) (v : Json) :
    Copies x.files x.library (.value source v) (x.expand n source v .start).1 :=
  (copies_expandWith (supports_inline x n) v (fun e he => by cases he)).1

end Expander

/-- A description that is resolved is a copy of the one that it was made from. -/
theorem Document.copies_resolve {w : World} {root : Source} {d d' : Document}
    (h : d.resolve w root = .ok d') :
    ∃ l, Library.ofRoot w root d.root = .ok l ∧ Copies w.files l (.value root d.root) d'.root := by
  obtain ⟨l, hl, h⟩ := Except.ok_of_bind h
  refine ⟨l, hl, ?_⟩
  have copies := Expander.copies_expand
    ⟨w.files, l, (ReferenceGraph.ofLibrary w.files l root d.root).components⟩
    ((ReferenceGraph.ofLibrary w.files l root d.root).edges.length + 1) root d.root
  dsimp only at h
  split at h
  · cases h
    exact copies
  · cases h

/-! ### Where a copy comes from -/

/-- A reference leads to what a target of its key points to. -/
inductive Library.Follows (l : Library) (files : Files) : Source × Json → Source × Json → Prop
  | mk {source source' : Source} {members : List (String × Json)} {text : String} {t u : Target}
      {v : Json} (found : Json.referenceOf? members = some text)
      (good : Target.parse files source text = .ok t) (same : u.key = t.key)
      (present : l.find? u = some (source', v)) :
      Follows l files (source, .obj ⟨members⟩) (source', v)

variable {files : Files} {l : Library}

/-- A value was copied from one that stands there, or behind references. -/
structure Traced (files : Files) (l : Library) (source : Source) (v r : Json) : Prop where
  members : ∀ results, r = .obj ⟨results⟩ → ∀ k w, (k, w) ∈ results → ∃ source' members u,
    Relation.ReflTransGen (l.Follows files) (source, v) (source', .obj ⟨members⟩) ∧
      (k, u) ∈ members ∧ Copies files l (.value source' u) w
  items : ∀ results, r = .arr results → ∀ w ∈ results, ∃ source' items, ∃ u ∈ items,
    Relation.ReflTransGen (l.Follows files) (source, v) (source', .arr items) ∧
      Copies files l (.value source' u) w

namespace Copies

variable {source : Source} {r w : Json}

theorem mem_items {items results : List Json}
    (h : Copies files l (.items source items) (.arr results)) (mem : w ∈ results) :
    ∃ u ∈ items, Copies files l (.value source u) w := by
  induction items generalizing results with
  | nil =>
    cases h
    cases mem
  | cons v items ih =>
    cases h with
    | item inner rest =>
      rcases List.mem_cons.mp mem with rfl | mem
      · exact ⟨v, List.mem_cons_self, inner⟩
      · obtain ⟨u, hu, copies⟩ := ih rest mem
        exact ⟨u, List.mem_cons_of_mem _ hu, copies⟩

theorem mem_members {members results : List (String × Json)} {k : String}
    (h : Copies files l (.members source members) (.obj ⟨results⟩)) (mem : (k, w) ∈ results) :
    ∃ u, (k, u) ∈ members ∧ Copies files l (.value source u) w := by
  induction members generalizing results with
  | nil =>
    cases h
    cases mem
  | cons m members ih =>
    cases h with
    | member inner rest =>
      rcases List.mem_cons.mp mem with same | mem
      · cases same
        exact ⟨_, List.mem_cons_self, inner⟩
      · obtain ⟨u, hu, copies⟩ := ih rest mem
        exact ⟨u, List.mem_cons_of_mem _ hu, copies⟩

/-- What stands in the result was set from beside the reference, or stands in its target. -/
theorem mem_beside {members : List (String × Json)} {target results : Json.Members} {k : String}
    (h : Copies files l (.beside source members target) (.obj results))
    (mem : (k, w) ∈ results.entries) :
    (k, w) ∈ target.entries ∨ ∃ u, (k, u) ∈ members ∧ Copies files l (.value source u) w := by
  induction members generalizing target with
  | nil =>
    cases h
    exact Or.inl mem
  | cons m members ih =>
    cases h with
    | skipped rest =>
      refine (ih rest).imp_right fun ⟨u, hu, copies⟩ => ⟨u, List.mem_cons_of_mem _ hu, copies⟩
    | set other inner rest =>
      rcases ih rest with mem | ⟨u, hu, copies⟩
      · rcases Dict.mem_put mem with same | mem
        · cases same
          exact Or.inr ⟨_, List.mem_cons_self, inner⟩
        · exact Or.inl mem
      · exact Or.inr ⟨u, List.mem_cons_of_mem _ hu, copies⟩

theorem exists_obj_of_members {members : List (String × Json)}
    (h : Copies files l (.members source members) r) : ∃ results, r = .obj results := by
  cases h <;> exact ⟨_, rfl⟩

theorem exists_obj_of_beside {members : List (String × Json)} {target : Json.Members}
    (h : Copies files l (.beside source members target) r) : ∃ results, r = .obj results := by
  induction members generalizing target with
  | nil =>
    cases h
    exact ⟨_, rfl⟩
  | cons m members ih =>
    cases h with
    | skipped rest => exact ih rest
    | set _ _ rest => exact ih rest

end Copies

/-- Where the result of a task comes from, for values and for objects that are references. -/
def Origin (files : Files) (l : Library) : Task → Json → Prop
  | .value source v, r => Traced files l source v r
  | .reference source text, r => ∀ members, Json.referenceOf? members = some text →
      Traced files l source (.obj ⟨members⟩) r
  | _, _ => True

theorem Traced.behind {source source' : Source} {v v' r : Json} (h : Traced files l source' v' r)
    (follows : l.Follows files (source, v) (source', v')) : Traced files l source v r := by
  constructor
  · intro results hr k w mem
    obtain ⟨source₁, members, u, path, hu, copies⟩ := h.members results hr k w mem
    exact ⟨source₁, members, u, .head follows path, hu, copies⟩
  · intro results hr w mem
    obtain ⟨source₁, items, u, hu, path, copies⟩ := h.items results hr w mem
    exact ⟨source₁, items, u, hu, .head follows path, copies⟩

theorem Copies.origin {task : Task} {r : Json} (h : Copies files l task r) :
    Origin files l task r := by
  induction h with
  | leaf flat plain => exact ⟨fun _ hr => absurd hr (plain _), fun _ hr => absurd hr (flat _)⟩
  | @array source items _ inner _ =>
    constructor
    · rintro _ rfl
      cases inner
    · rintro results rfl w mem
      obtain ⟨u, hu, copies⟩ := inner.mem_items mem
      exact ⟨source, items, u, hu, .refl, copies⟩
  | @object source members _ plain inner _ =>
    constructor
    · rintro results rfl k w mem
      obtain ⟨u, hu, copies⟩ := inner.mem_members mem
      exact ⟨source, members, u, .refl, hu, copies⟩
    · rintro _ rfl
      cases inner
  | @overlaid source members _ target _ found inner rest ih _ =>
    constructor
    · rintro results rfl k w mem
      rcases rest.mem_beside mem with mem | ⟨u, hu, copies⟩
      · exact (ih members found).members target.entries rfl k w mem
      · exact ⟨source, members, u, .refl, hu, copies⟩
    · obtain ⟨_, rfl⟩ := rest.exists_obj_of_beside
      exact fun _ hr => Json.noConfusion hr
  | replaced found _ _ ih => exact ih _ found
  | cut =>
    intro members _
    constructor
    · rintro _ ⟨⟩ k w mem
      cases mem
    · exact fun _ hr => Json.noConfusion hr
  | followed good same present inner ih =>
    exact fun members found => ih.behind (.mk found good same present)
  | _ => trivial

/-- What is copied from a value comes from members and items of what stands there. -/
theorem Copies.traced {source : Source} {v r : Json} (h : Copies files l (.value source v) r) :
    Traced files l source v r := h.origin

namespace Copies

variable {source : Source} {v : Json} {key : String}

theorem lookup_members {members results : List (String × Json)}
    (h : Copies files l (.members source members) (.obj ⟨results⟩))
    (there : Dict.lookup key members = some v) :
    ∃ w, Dict.lookup key results = some w ∧ Copies files l (.value source v) w := by
  induction members generalizing results with
  | nil => cases there
  | cons m members ih =>
    cases h with
    | member inner rest =>
      rw [Dict.lookup] at there ⊢
      split at there
      · next hk =>
        cases there
        rw [if_pos hk]
        exact ⟨_, rfl, inner⟩
      · next hk =>
        rw [if_neg hk]
        exact ih rest there

/-- What nothing beside a reference sets stays as it is in the target. -/
theorem get?_beside_of_absent {members : List (String × Json)} {target results : Json.Members}
    (h : Copies files l (.beside source members target) (.obj results))
    (absent : key ∉ members.map (·.1)) : results.get? key = target.get? key := by
  induction members generalizing target with
  | nil =>
    cases h
    rfl
  | cons m members ih =>
    rw [List.map_cons, List.mem_cons, not_or] at absent
    cases h with
    | skipped rest => exact ih rest absent.2
    | set _ _ rest => rw [ih rest absent.2, Dict.get?_insert, if_neg (Ne.symm absent.1)]

/-- A member beside a reference is found in the result, whatever the target is. -/
theorem get?_beside {members : List (String × Json)} {target results : Json.Members}
    (h : Copies files l (.beside source members target) (.obj results))
    (nodup : (members.map (·.1)).Nodup) (other : key ≠ "$ref")
    (there : Dict.lookup key members = some v) :
    ∃ w, results.get? key = some w ∧ Copies files l (.value source v) w := by
  induction members generalizing target with
  | nil => cases there
  | cons m members ih =>
    obtain ⟨fresh, nodup'⟩ := List.nodup_cons.mp nodup
    cases h with
    | skipped rest =>
      rw [Dict.lookup, if_neg (Ne.symm other)] at there
      exact ih rest nodup' there
    | @set _ k u r _ _ _ _ inner rest =>
      rw [Dict.lookup] at there
      split at there
      · next hk =>
        cases there
        subst hk
        refine ⟨r, ?_, inner⟩
        rw [rest.get?_beside_of_absent fresh, Dict.get?_insert, if_pos rfl]
      · exact ih rest nodup' there

/-- What is copied from an object is no object, or has a copy of each member. -/
theorem get?_obj {members : Json.Members} {r : Json}
    (h : Copies files l (.value source (.obj members)) r) (distinct : (Json.obj members).Distinct)
    (other : key ≠ "$ref") (there : members.get? key = some v) :
    (∀ results, r ≠ .obj results) ∨
      ∃ results w, r = .obj results ∧ results.get? key = some w ∧
        Copies files l (.value source v) w := by
  obtain ⟨members⟩ := members
  cases h with
  | leaf _ plain => exact absurd rfl (plain _)
  | object _ inner =>
    obtain ⟨results, rfl⟩ := inner.exists_obj_of_members
    obtain ⟨w, hw, copies⟩ := inner.lookup_members there
    exact Or.inr ⟨results, w, rfl, hw, copies⟩
  | overlaid _ _ rest =>
    obtain ⟨results, rfl⟩ := rest.exists_obj_of_beside
    obtain ⟨w, hw, copies⟩ := rest.get?_beside distinct.keys other there
    exact Or.inr ⟨results, w, rfl, hw, copies⟩
  | replaced _ _ none => exact Or.inl none

end Copies

/-- Only a text is copied from a text. -/
theorem Copies.of_str {source : Source} {text : String} {r : Json}
    (h : Copies files l (.value source (.str text)) r) : r = .str text := by
  cases h
  rfl

namespace Document

theorem version_eq_some_iff {d : Document} {version : String} :
    d.version = some version ↔ ∃ members info, d.root = .obj members ∧
      members.get? "info" = some (.obj info) ∧ info.get? "version" = some (.str version) := by
  simp only [Document.version, within, Option.bind_eq_some_iff, Json.get?_eq_some_iff,
    Json.str?_eq_some_iff]
  constructor
  · rintro ⟨_, ⟨_, ⟨members, hroot, hinfo⟩, info, rfl, hversion⟩, rfl⟩
    exact ⟨members, info, hroot, hinfo, hversion⟩
  · rintro ⟨members, info, hroot, hinfo, hversion⟩
    exact ⟨_, ⟨_, ⟨members, hroot, hinfo⟩, info, rfl, hversion⟩, rfl⟩

/-- A description has its version still when its references are expanded, or has none any more: the
root or its `info` may be a reference to something that is no object. -/
theorem version_resolve {w : World} {root : Source} {d d' : Document} {version : String}
    (h : d.resolve w root = .ok d') (distinct : d.root.Distinct)
    (known : d.version = some version) : d'.version = some version ∨ d'.version = none := by
  cases known' : d'.version with
  | none => exact Or.inr rfl
  | some version' =>
    obtain ⟨l, -, copies⟩ := copies_resolve h
    obtain ⟨members, info, hroot, hinfo, hversion⟩ := version_eq_some_iff.mp known
    obtain ⟨members', info', hroot', hinfo', hversion'⟩ := version_eq_some_iff.mp known'
    rw [hroot] at copies distinct
    rw [hroot'] at copies
    rcases copies.get?_obj distinct (by decide) hinfo with none | ⟨_, w, same, hw, copies⟩
    · exact absurd rfl (none _)
    cases same
    cases hinfo'.symm.trans hw
    rcases copies.get?_obj (distinct.get? hinfo) (by decide) hversion with
      none | ⟨_, w, same, hw, copies⟩
    · exact absurd rfl (none _)
    cases same
    cases hversion'.symm.trans hw
    cases copies.of_str
    exact Or.inl rfl

end Document

end ToolGateway
