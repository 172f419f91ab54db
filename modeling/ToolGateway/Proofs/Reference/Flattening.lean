import ToolGateway.Proofs.Reference.Copying
import ToolGateway.Proofs.Reference.Inlining

/-!
# References to what is no object

Members beside a reference are set over its target only when that is an object, so an object that is
a reference can become a text or an array, and everything in it is gone. The references alone
tell when: they lead, one after the other, to a value that is no object (`Flattens`). They meet no
key twice on the way, so none of them is cut off (`Keyed.notMem`), and what is remembered of a
target is an object or not as its references tell (`Consistent`, `Runs.flattens`).
-/

namespace ToolGateway

/-- References lead from a task to a value that is no object, over the targets with some keys. -/
inductive Flattens (files : Files) (l : Library) : Task → List String → Prop
  | flat {source : Source} {v : Json} (other : v.isObj = false) :
      Flattens files l (.value source v) []
  | items {source : Source} {items : List Json} : Flattens files l (.items source items) []
  | value {source : Source} {members : List (String × Json)} {text : String} {keys : List String}
      (found : Json.referenceOf? members = some text)
      (inner : Flattens files l (.reference source text) keys) :
      Flattens files l (.value source (.obj ⟨members⟩)) keys
  | reference {source : Source} {text : String} {t : Target} {keys : List String}
      (good : Target.parse files source text = .ok t)
      (inner : Flattens files l (.target t text) keys) :
      Flattens files l (.reference source text) (t.key :: keys)
  | target {t : Target} {text : String} {source : Source} {v : Json} {keys : List String}
      (present : l.find? t = some (source, v))
      (inner : Flattens files l (.value source v) keys) : Flattens files l (.target t text) keys

namespace Json

theorem isObj_eq_false_iff {v : Json} : v.isObj = false ↔ ∀ members, v ≠ .obj members := by
  cases v <;> simp [isObj]

theorem isObj_eq_true_iff {v : Json} : v.isObj = true ↔ ∃ members, v = .obj members := by
  cases v <;> simp [isObj]

end Json

variable {files : Files} {l : Library} {task : Task} {keys : List String}

/-! ### The way to the value -/

namespace Flattens

/-- References lead one way. -/
theorem unique {keys' : List String} (h : Flattens files l task keys)
    (h' : Flattens files l task keys') : keys = keys' := by
  induction h generalizing keys' with
  | flat other =>
    cases h' with
    | flat _ => rfl
    | value _ _ => cases other
  | items =>
    cases h'
    rfl
  | value found _ ih =>
    cases h' with
    | flat other => cases other
    | value again inner =>
      rw [found] at again
      cases again
      exact ih inner
  | reference good _ ih =>
    cases h' with
    | reference again inner =>
      rw [good] at again
      cases again
      exact congrArg (_ :: ·) (ih inner)
  | target present _ ih =>
    cases h' with
    | target again inner =>
      rw [present] at again
      cases again
      exact ih inner

/-- An object leads somewhere only as a reference. -/
theorem of_value {source : Source} {members : List (String × Json)}
    (h : Flattens files l (.value source (.obj ⟨members⟩)) keys) :
    ∃ text, Json.referenceOf? members = some text ∧
      Flattens files l (.reference source text) keys := by
  cases h with
  | flat other => cases other
  | value found inner => exact ⟨_, found, inner⟩

theorem of_reference {source : Source} {text : String} {t : Target}
    (h : Flattens files l (.reference source text) keys)
    (good : Target.parse files source text = .ok t) :
    ∃ rest, keys = t.key :: rest ∧ Flattens files l (.target t text) rest := by
  cases h with
  | reference again inner =>
    rw [good] at again
    cases again
    exact ⟨_, rfl, inner⟩

/-- Where a target leads depends on what it points to alone. -/
theorem target_congr {t u : Target} {text text' : String}
    (h : Flattens files l (.target t text) keys) (same : l.find? t = l.find? u) :
    Flattens files l (.target u text') keys := by
  cases h with
  | target present inner => exact .target (same ▸ present) inner

end Flattens

/-- From each target on the way the references lead on to the same end. -/
theorem Flattens.exists_rest (h : Flattens files l task keys) (all : task.All files (l.Names files))
    {k : String} (mem : k ∈ keys) : ∃ t text rest, l.Names files t ∧ t.key = k ∧
      Flattens files l (.target t text) rest ∧ rest.length < keys.length := by
  induction h with
  | flat _ | items => cases mem
  | value found _ ih => exact ih (Links.reference all found) mem
  | @reference _ text t rest good inner ih =>
    have named : l.Names files t := all text List.mem_cons_self t good
    rcases List.mem_cons.mp mem with rfl | mem
    · exact ⟨t, text, rest, named, rfl, inner, Nat.lt_succ_self _⟩
    · obtain ⟨u, text, rest, hu, same, onward, shorter⟩ := ih named mem
      exact ⟨u, text, rest, hu, same, onward, Nat.lt_succ_of_lt shorter⟩
  | target present _ ih => exact ih (Library.Names.links all present) mem

namespace Expander

variable {x : Expander} {s s' : Expansion} {r : Json} {a : Trace} {source : Source} {t : Target}

/-- A target on the way does not come again: it would lead on from there to no end. -/
theorem Keyed.notMem (hk : x.Keyed) (named : x.library.Names x.files t) {text : String}
    (h : Flattens x.files x.library (.target t text) keys) : t.key ∉ keys := by
  intro mem
  obtain ⟨u, _, rest, hu, same, onward, shorter⟩ := h.exists_rest named mem
  have again := h.unique (onward.target_congr (hk u t hu named same))
  rw [again] at shorter
  exact Nat.lt_irrefl _ shorter

/-! ### What an expansion makes of it -/

/-- What is known of a key is no object exactly when its target leads to no object. -/
def Consistent (x : Expander) (s : Expansion) : Prop :=
  ∀ e ∈ s.done, ∀ t, x.library.Names x.files t → t.key = e.1 → ∀ text,
    (e.2.isObj = false ↔ ∃ keys, Flattens x.files x.library (.target t text) keys)

/-- None of the keys was put in below the present entry. -/
def Unseen (s : Expansion) (keys : List String) : Prop :=
  ∀ scope, s.scope = some scope → ∀ k ∈ keys, k ∉ scope.visited

/-- What becomes of a task is no object only if references lead to none, and if they do without any
key that was put in already. -/
structure Ends (x : Expander) (task : Task) (s : Expansion) (r : Json) : Prop where
  leads : r.isObj = false → ∃ keys, Flattens x.files x.library task keys
  ends : ∀ keys, Flattens x.files x.library task keys → Unseen s keys → r.isObj = false

theorem Ends.iff (h : x.Ends task s r)
    (unseen : ∀ keys, Flattens x.files x.library task keys → Unseen s keys) :
    r.isObj = false ↔ ∃ keys, Flattens x.files x.library task keys :=
  ⟨h.leads, fun ⟨keys, flattens⟩ => h.ends keys flattens (unseen keys flattens)⟩

theorem unseen_visit (fresh : t.key ∉ keys) (h : Unseen s keys) : Unseen (visit t.key s) keys := by
  intro scope here k hk
  obtain ⟨before, there, rfl⟩ := Option.map_eq_some_iff.mp here
  rw [List.mem_cons, not_or]
  exact ⟨fun same => fresh (same ▸ hk), h before there k hk⟩

theorem unseen_enter (fresh : t.key ∉ keys) : Unseen (x.enter t.key s) keys := by
  rintro _ ⟨⟩ k hk
  rw [List.mem_singleton]
  exact fun same => fresh (same ▸ hk)

theorem Consistent.known (consistent : Consistent x s) (step : x.step s t.key = .known r)
    (named : x.library.Names x.files t) (text : String) :
    r.isObj = false ↔ ∃ keys, Flattens x.files x.library (.target t text) keys := by
  obtain ⟨-, found⟩ := taken step
  obtain ⟨before, after, same, -⟩ := List.lookup_eq_some_iff.mp found
  have mem : (t.key, r) ∈ s.done := by simp [same]
  exact consistent _ mem t named rfl text

theorem Consistent.leave (consistent : Consistent x s) (hk : x.Keyed)
    (named : x.library.Names x.files t) {text : String}
    (h : r.isObj = false ↔ ∃ keys, Flattens x.files x.library (.target t text) keys)
    (outer : Option Scope) : Consistent x (leave outer t.key r s) := by
  refine List.forall_mem_cons.mpr ⟨?_, consistent⟩
  intro u hu same text'
  have find := hk t u named hu same.symm
  rw [h]
  exact exists_congr fun keys => ⟨(·.target_congr find), (·.target_congr find.symm)⟩

namespace Runs

theorem isObj_beside {members : List (String × Json)} {target : Json.Members}
    (h : Runs x (.beside source members target) s r s' a) : r.isObj = true := by
  induction members generalizing target s a with
  | nil =>
    cases h
    rfl
  | cons m members ih =>
    cases h with
    | skipped rest => exact ih rest
    | set _ _ rest => exact ih rest

end Runs

theorem ends_items {items results : List Json} :
    x.Ends (.items source items) s (.arr results) :=
  ⟨fun _ => ⟨[], .items⟩, fun _ _ _ => rfl⟩

theorem ends_members {members : List (String × Json)} {results : Json.Members} :
    x.Ends (.members source members) s (.obj results) :=
  ⟨nofun, nofun⟩

theorem Runs.ends_beside {members : List (String × Json)} {target : Json.Members}
    (h : Runs x (.beside source members target) s r s' a) :
    x.Ends (.beside source members target) s r := by
  refine ⟨fun other => ?_, nofun⟩
  rw [h.isObj_beside] at other
  cases other

/-- What becomes of a task is an object or not as its references tell, and so is what gets known. -/
theorem Runs.flattens (hk : x.Keyed) (run : Runs x task s r s' a)
    (all : task.All x.files (x.library.Names x.files)) (consistent : Consistent x s) :
    Consistent x s' ∧ x.Ends task s r := by
  induction run with
  | leaf flat plain =>
    exact ⟨consistent, fun other => ⟨[], .flat other⟩,
      fun _ _ _ => Json.isObj_eq_false_iff.mpr plain⟩
  | array run ih =>
    obtain ⟨results, rfl⟩ := run.exists_arr
    exact ⟨(ih all consistent).1, fun _ => ⟨[], .flat rfl⟩, fun _ _ _ => rfl⟩
  | object plain run ih =>
    obtain ⟨results, rfl⟩ := run.exists_obj
    refine ⟨(ih all.members consistent).1, ⟨nofun, fun keys flattens _ => ?_⟩⟩
    obtain ⟨text, found, -⟩ := flattens.of_value
    rw [plain] at found
    cases found
  | overlaid found run rest ih ih' =>
    obtain ⟨consistent, inner⟩ := ih (Links.reference all found) consistent
    refine ⟨(ih' all.members consistent).1, ⟨fun other => ?_, fun keys flattens unseen => ?_⟩⟩
    · rw [rest.isObj_beside] at other
      cases other
    -- The reference would have become no object already, and nothing would be set over that.
    · obtain ⟨text, again, onward⟩ := flattens.of_value
      rw [found] at again
      cases again
      cases inner.ends keys onward unseen
  | replaced found run other ih =>
    obtain ⟨consistent, inner⟩ := ih (Links.reference all found) consistent
    refine ⟨consistent, ⟨fun other => ?_, fun _ _ _ => Json.isObj_eq_false_iff.mpr other⟩⟩
    obtain ⟨keys, onward⟩ := inner.leads other
    exact ⟨keys, .value found onward⟩
  | item run rest ih ih' =>
    obtain ⟨first, others⟩ := Links.append.mp all
    exact ⟨(ih' others (ih first consistent).1).1, ends_items⟩
  | member run rest ih ih' =>
    obtain ⟨first, others⟩ := Links.append.mp all
    exact ⟨(ih' others (ih first consistent).1).1, ends_members⟩
  | skipped rest ih =>
    exact ⟨(ih (Links.append.mp all).2 consistent).1, (Runs.skipped rest).ends_beside⟩
  | set other run rest ih ih' =>
    obtain ⟨first, others⟩ := Links.append.mp all
    exact ⟨(ih' others (ih first consistent).1).1, (Runs.set other run rest).ends_beside⟩
  | noItem => exact ⟨consistent, ends_items⟩
  | noMember => exact ⟨consistent, ends_members⟩
  | nothingBeside => exact ⟨consistent, Runs.nothingBeside.ends_beside⟩
  | broken bad =>
    refine ⟨consistent, ⟨nofun, fun keys flattens _ => ?_⟩⟩
    cases flattens with
    | reference good _ =>
      rw [bad] at good
      cases good
  | cut good step =>
    refine ⟨consistent, ⟨nofun, fun keys flattens unseen => ?_⟩⟩
    obtain ⟨rest, rfl, -⟩ := flattens.of_reference good
    obtain ⟨scope, inside, seen⟩ := taken step
    exact absurd seen (unseen scope inside.1 _ List.mem_cons_self)
  | deeper good step run ih =>
    have named := all _ List.mem_cons_self _ good
    obtain ⟨consistent, inner⟩ := ih named consistent
    refine ⟨consistent, ⟨fun other => ?_, fun keys flattens unseen => ?_⟩⟩
    · obtain ⟨keys, onward⟩ := inner.leads other
      exact ⟨_, .reference good onward⟩
    · obtain ⟨rest, rfl, onward⟩ := flattens.of_reference good
      refine inner.ends rest onward (unseen_visit (hk.notMem named onward) ?_)
      exact fun scope here k hr => unseen scope here k (List.mem_cons_of_mem _ hr)
  | known good step =>
    have known := consistent.known step (all _ List.mem_cons_self _ good)
    refine ⟨consistent, ⟨fun other => ?_, fun keys flattens _ => ?_⟩⟩
    · obtain ⟨keys, onward⟩ := (known _).mp other
      exact ⟨_, .reference good onward⟩
    · obtain ⟨rest, -, onward⟩ := flattens.of_reference good
      exact (known _).mpr ⟨rest, onward⟩
  | entered good step run ih =>
    have named := all _ List.mem_cons_self _ good
    obtain ⟨consistent, inner⟩ := ih named consistent
    have known := inner.iff fun _ onward => unseen_enter (hk.notMem named onward)
    refine ⟨consistent.leave hk named known _, ⟨fun other => ?_, fun keys flattens _ => ?_⟩⟩
    · obtain ⟨keys, onward⟩ := known.mp other
      exact ⟨_, .reference good onward⟩
    · obtain ⟨rest, -, onward⟩ := flattens.of_reference good
      exact known.mpr ⟨rest, onward⟩
  | missing absent =>
    refine ⟨consistent, ⟨nofun, fun keys flattens _ => ?_⟩⟩
    cases flattens with
    | target present _ =>
      rw [absent] at present
      cases present
  | found present run ih =>
    obtain ⟨consistent, inner⟩ := ih (Library.Names.links all present) consistent
    refine ⟨consistent, ⟨fun other => ?_, fun keys flattens unseen => ?_⟩⟩
    · obtain ⟨keys, onward⟩ := inner.leads other
      exact ⟨keys, .target present onward⟩
    · cases flattens with
      | target again onward =>
        rw [present] at again
        cases again
        exact inner.ends keys onward unseen

/-! ### Members outside of all targets -/

namespace Runs

/-- Outside of all targets nothing is cut off. -/
theorem flattens_outside (hk : x.Keyed) (run : Runs x task s r s' a)
    (all : task.All x.files (x.library.Names x.files)) (consistent : Consistent x s)
    (outside : s.scope = none) : Consistent x s' ∧ s'.scope = none ∧
      (r.isObj = false ↔ ∃ keys, Flattens x.files x.library task keys) := by
  obtain ⟨consistent, inner⟩ := run.flattens hk all consistent
  refine ⟨consistent, ?_, inner.iff fun _ _ scope here => ?_⟩
  · rw [run.scope_eq, outside]
    rfl
  · rw [outside] at here
    cases here

variable {key : String} {v : Json}

theorem flattens_member (hk : x.Keyed) {members results : List (String × Json)}
    (run : Runs x (.members source members) s (.obj ⟨results⟩) s' a)
    (all : (Task.members source members).All x.files (x.library.Names x.files))
    (consistent : Consistent x s) (outside : s.scope = none)
    (there : Dict.lookup key members = some v) :
    ∃ w, Dict.lookup key results = some w ∧
      (w.isObj = false ↔ ∃ keys, Flattens x.files x.library (.value source v) keys) := by
  induction members generalizing results s a with
  | nil => cases there
  | cons m members ih =>
    obtain ⟨first, others⟩ := Links.append.mp all
    cases run with
    | member run rest =>
      obtain ⟨consistent, outside, ends⟩ := run.flattens_outside hk first consistent outside
      rw [Dict.lookup] at there ⊢
      split at there
      · next same =>
        cases there
        rw [if_pos same]
        exact ⟨_, rfl, ends⟩
      · next other =>
        rw [if_neg other]
        exact ih rest others consistent outside there

/-- What nothing beside a reference sets stays as it is in the target. -/
theorem get?_beside_of_absent {members : List (String × Json)} {target results : Json.Members}
    (run : Runs x (.beside source members target) s (.obj results) s' a)
    (absent : key ∉ members.map (·.1)) : results.get? key = target.get? key := by
  induction members generalizing target s a with
  | nil =>
    cases run
    rfl
  | cons m members ih =>
    rw [List.map_cons, List.mem_cons, not_or] at absent
    cases run with
    | skipped rest => exact ih rest absent.2
    | set _ _ rest => rw [ih rest absent.2, Dict.get?_insert, if_neg (Ne.symm absent.1)]

theorem flattens_beside (hk : x.Keyed) {members : List (String × Json)}
    {target results : Json.Members}
    (run : Runs x (.beside source members target) s (.obj results) s' a)
    (all : (Task.beside source members target).All x.files (x.library.Names x.files))
    (consistent : Consistent x s) (outside : s.scope = none) (nodup : (members.map (·.1)).Nodup)
    (other : key ≠ "$ref") (there : Dict.lookup key members = some v) :
    ∃ w, results.get? key = some w ∧
      (w.isObj = false ↔ ∃ keys, Flattens x.files x.library (.value source v) keys) := by
  induction members generalizing target s a with
  | nil => cases there
  | cons m members ih =>
    obtain ⟨fresh, apart⟩ := List.nodup_cons.mp nodup
    obtain ⟨first, others⟩ := Links.append.mp all
    cases run with
    | skipped rest =>
      rw [Dict.lookup, if_neg (Ne.symm other)] at there
      exact ih rest others consistent outside apart there
    | @set _ k _ w _ _ _ _ _ _ _ _ _ run rest =>
      obtain ⟨consistent, outside, ends⟩ := run.flattens_outside hk first consistent outside
      rw [Dict.lookup] at there
      split at there
      · next same =>
        cases there
        subst same
        refine ⟨w, ?_, ends⟩
        rw [rest.get?_beside_of_absent fresh, Dict.get?_insert, if_pos rfl]
      · exact ih rest others consistent outside apart there

/-- A member of an object that stands outside of all targets becomes no object exactly when its
references lead to none, unless the object itself does. -/
theorem flattens_within (hk : x.Keyed) {members : Json.Members}
    (run : Runs x (.value source (.obj members)) s r s' a)
    (all : (Task.value source (.obj members)).All x.files (x.library.Names x.files))
    (consistent : Consistent x s) (outside : s.scope = none) (nodup : members.keys.Nodup)
    (other : key ≠ "$ref") (there : members.get? key = some v) :
    r.isObj = false ∨ ∃ w, r.get? key = some w ∧
      (w.isObj = false ↔ ∃ keys, Flattens x.files x.library (.value source v) keys) := by
  obtain ⟨members⟩ := members
  cases run with
  | leaf _ plain => exact absurd rfl (plain _)
  | object _ run =>
    obtain ⟨results, rfl⟩ := run.exists_obj
    exact Or.inr (run.flattens_member hk (Links.members all) consistent outside there)
  | overlaid found run rest =>
    obtain ⟨consistent, outside, -⟩ :=
      run.flattens_outside hk (Links.reference all found) consistent outside
    obtain ⟨results, rfl⟩ := Json.isObj_eq_true_iff.mp rest.isObj_beside
    exact Or.inr (rest.flattens_beside hk (Links.members all) consistent outside nodup other there)
  | replaced _ _ none => exact Or.inl (Json.isObj_eq_false_iff.mpr none)

end Runs

end Expander

end ToolGateway
