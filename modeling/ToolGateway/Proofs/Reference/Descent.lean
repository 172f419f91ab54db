import ToolGateway.Proofs.Reference.Keys
import ToolGateway.Proofs.Reference.Run

/-!
# Targets inside targets

Targets that are put into each other have different keys: below one entry no key is put in twice, and
what is entered from there never leads back to it. So an expansion with fuel for every key of the
graph is a run (`runs_expand`), and a run enters no component twice at one key (`Runs.opened`).
-/

namespace ToolGateway

/-- All targets that references of a source name have a property. -/
def Links (files : Files) (source : Source) (texts : List String) (p : Target → Prop) : Prop :=
  ∀ text ∈ texts, ∀ t, Target.parse files source text = .ok t → p t

section Links

variable {files : Files} {source : Source} {ms : List (String × Json)} {p : Target → Prop}

theorem Links.append {xs ys : List String} :
    Links files source (xs ++ ys) p ↔ Links files source xs p ∧ Links files source ys p := by
  simp only [Links, List.forall_mem_append]

theorem Links.reference {text : String} (h : Links files source (Json.obj ⟨ms⟩).references p)
    (found : Json.referenceOf? ms = some text) : Links files source [text] p := by
  rw [Json.references, found] at h
  exact (Links.append.mp h).1

theorem Links.members (h : Links files source (Json.obj ⟨ms⟩).references p) :
    Links files source (Json.memberReferences ms) p := by
  rw [Json.references] at h
  exact (Links.append.mp h).2

end Links

/-- The references in what a named target points to name targets of the library. -/
theorem Library.Names.links {files : Files} {l : Library} {t : Target} (named : l.Names files t)
    {source : Source} {v : Json} (present : l.find? t = some (source, v)) :
    Links files source v.references (l.Names files) := by
  intro text htext u hu
  refine Library.names_of_mem_targets named ?_
  rw [Library.targets, present]
  exact Target.mem_within_iff.mpr ⟨text, htext, hu⟩

namespace Expander

/-- The components are those of a graph in which the targets of a named target are next to it. -/
structure Charted (x : Expander) (g : ReferenceGraph) : Prop where
  components : x.components = g.components
  closed : g.Closed
  next : ∀ t, x.library.Names x.files t → t.key ∈ g.keys →
    g.next t.key = (x.library.targets x.files t).map Target.key

variable {x : Expander} {g : ReferenceGraph} {entry : Option String} {path : List String}

namespace Charted

theorem isSome_lookup (hx : x.Charted g) {k : String} :
    (x.components.lookup k).isSome = true ↔ k ∈ g.keys := by
  rw [hx.components]
  exact ReferenceGraph.isSome_lookup_components hx.closed

theorem lookup_eq_iff (hx : x.Charted g) {a b : String} (ha : a ∈ g.keys) :
    x.components.lookup a = x.components.lookup b ↔ g.Reaches a b ∧ g.Reaches b a := by
  rw [hx.components]
  exact ReferenceGraph.component_eq_iff hx.closed ha

end Charted

/-! ### Where an expansion stands -/

/-- An expansion inside the targets of `path`, where the component of `entry` was entered last. Each
key of the path is among those put in since, or it cannot be reached from the entry. -/
inductive Standing (x : Expander) (g : ReferenceGraph) :
    Option String → List String → Expansion → Prop
  | outside {s : Expansion} (here : s.scope = none) : Standing x g none [] s
  | inside {key : String} {path : List String} {s : Expansion} {scope : Scope}
      (here : s.scope = some scope) (mem : key ∈ g.keys)
      (component : scope.component = x.components.lookup key) (kept : Runs.Kept x s)
      (nodup : path.Nodup) (keys : path ⊆ g.keys)
      (apart : ∀ p ∈ path, p ∈ scope.visited ∨ ¬g.Reaches key p) :
      Standing x g (some key) path s

/-- A target that the library names and that can be reached from the entry. -/
def Due (x : Expander) (g : ReferenceGraph) (entry : Option String) (t : Target) : Prop :=
  x.library.Names x.files t ∧ t.key ∈ g.keys ∧ ∀ key ∈ entry, g.Reaches key t.key

namespace Standing

variable {s s' : Expansion} {t : Target}

theorem length_le (h : Standing x g entry path s) : path.length ≤ g.keys.length := by
  cases h with
  | outside _ => exact Nat.zero_le _
  | inside _ _ _ _ nodup keys _ => exact (List.subperm_of_subset nodup keys).length_le

/-- After a run the expansion stands where it stood before. -/
theorem after {task : Task} {r : Json} {a : Trace} (h : Standing x g entry path s)
    (run : Runs x task s r s' a) : Standing x g entry path s' := by
  have hs := run.scope_eq
  cases h with
  | outside here =>
    rw [here] at hs
    exact .outside hs
  | inside here mem component kept nodup keys apart =>
    rw [here] at hs
    refine .inside hs mem component (run.recorded kept).1 nodup keys ?_
    intro p hp
    rcases apart p hp with hv | hr
    · exact Or.inl (List.mem_append_right _ hv)
    · exact Or.inr hr

/-- A target of the present component is put in below the entry. -/
theorem deeper (h : Standing x g entry path s) (due : Due x g entry t)
    (step : x.step s t.key = .below) : Standing x g entry (t.key :: path) (visit t.key s) := by
  obtain ⟨scope, inside, fresh⟩ := taken step
  have here := inside.1
  cases h with
  | outside none =>
    rw [none] at here
    cases here
  | @inside key _ _ other there mem component kept nodup keys apart =>
    rw [here] at there
    cases there
    have reach : g.Reaches key t.key := due.2.2 key rfl
    have now : (visit t.key s).scope = some { scope with visited := t.key :: scope.visited } := by
      rw [visit, here]
      rfl
    refine .inside now mem component (kept.visit inside fresh) ?_ ?_ ?_
    -- A key of the path was put in since the entry or is out of its reach; this one is neither.
    · refine List.nodup_cons.mpr ⟨fun hp => ?_, nodup⟩
      rcases apart t.key hp with hv | hr
      · exact fresh hv
      · exact hr reach
    · exact List.cons_subset.mpr ⟨due.2.1, keys⟩
    · intro p hp
      rcases List.mem_cons.mp hp with rfl | hp
      · exact Or.inl List.mem_cons_self
      · exact (apart p hp).imp_left (List.mem_cons_of_mem _)

/-- What is entered from inside a component does not lead back to it. -/
theorem not_reaches (h : Standing x g entry path s) (hx : x.Charted g) (due : Due x g entry t)
    (step : x.step s t.key = .enter) : ∀ key ∈ entry, ¬g.Reaches t.key key := by
  obtain ⟨outside, -⟩ := taken step
  rintro key hkey back
  cases h with
  | outside _ => cases hkey
  | inside here mem component _ _ _ _ =>
    cases hkey
    refine outside _ ⟨here, hx.isSome_lookup.mpr due.2.1, component.trans ?_⟩
    exact (hx.lookup_eq_iff mem).mpr ⟨due.2.2 key rfl, back⟩

/-- The component of a target is entered. -/
theorem entered (h : Standing x g entry path s) (hx : x.Charted g) (due : Due x g entry t)
    (step : x.step s t.key = .enter) :
    Standing x g (some t.key) (t.key :: path) (x.enter t.key s) := by
  have kept := Runs.kept_enter x t.key s
  have away := h.not_reaches hx due step
  cases h with
  | outside here =>
    refine .inside rfl due.2.1 rfl kept (List.nodup_singleton _) (by simpa using due.2.1) ?_
    intro p hp
    exact Or.inl hp
  | @inside key _ _ scope here mem component inside nodup keys apart =>
    have reach : g.Reaches key t.key := due.2.2 key rfl
    have away : ¬g.Reaches t.key key := away key rfl
    -- What was put in since the entry leads to the entry, so the new entry does not lead there.
    have visited : ∀ p ∈ scope.visited, ¬g.Reaches t.key p := by
      intro p hp back
      have same := (inside scope here).2 p hp
      rw [component] at same
      have hk : p ∈ g.keys := by
        rw [← hx.isSome_lookup, same]
        exact hx.isSome_lookup.mpr mem
      exact away (back.trans ((hx.lookup_eq_iff hk).mp same).1)
    -- What the old entry does not lead to, the new one does not lead to either.
    have apart : ∀ p ∈ path, ¬g.Reaches t.key p := by
      intro p hp
      rcases apart p hp with hv | hr
      · exact visited p hv
      · exact fun back => hr (reach.trans back)
    refine .inside rfl due.2.1 rfl kept ?_ (List.cons_subset.mpr ⟨due.2.1, keys⟩) ?_
    · exact List.nodup_cons.mpr ⟨fun hp => apart t.key hp .refl, nodup⟩
    · intro p hp
      rcases List.mem_cons.mp hp with rfl | hp
      · exact Or.inl List.mem_cons_self
      · exact Or.inr (apart p hp)

end Standing

/-! ### What is to be expanded -/

/-- All targets of the references are due. -/
def Admits (x : Expander) (g : ReferenceGraph) (entry : Option String) (source : Source)
    (references : List String) : Prop :=
  ∀ text ∈ references, ∀ t, Target.parse x.files source text = .ok t → Due x g entry t

/-- All targets that a task leads to are due. -/
def Fits (x : Expander) (g : ReferenceGraph) (entry : Option String) : Task → Prop
  | .value source v => Admits x g entry source v.references
  | .items source items => Admits x g entry source (Json.itemReferences items)
  | .members source members => Admits x g entry source (Json.memberReferences members)
  | .beside source members _ => Admits x g entry source (Json.memberReferences members)
  | .reference source text => Admits x g entry source [text]
  | .target t _ => Due x g entry t

theorem Admits.append {source : Source} {xs ys : List String} :
    Admits x g entry source (xs ++ ys) ↔
      Admits x g entry source xs ∧ Admits x g entry source ys := Links.append

theorem Admits.reference {source : Source} {members : List (String × Json)} {text : String}
    (h : Admits x g entry source (Json.obj ⟨members⟩).references)
    (found : Json.referenceOf? members = some text) : Admits x g entry source [text] :=
  Links.reference h found

theorem Admits.members {source : Source} {members : List (String × Json)}
    (h : Admits x g entry source (Json.obj ⟨members⟩).references) :
    Admits x g entry source (Json.memberReferences members) := Links.members h

/-- What the references in the value of a target name is next to it. -/
theorem Charted.mem_next (hx : x.Charted g) {t u : Target} (named : x.library.Names x.files t)
    (mem : t.key ∈ g.keys) {source : Source} {v : Json}
    (present : x.library.find? t = some (source, v)) {text : String} (htext : text ∈ v.references)
    (hu : Target.parse x.files source text = .ok u) :
    x.library.Names x.files u ∧ u.key ∈ g.next t.key := by
  have target : u ∈ x.library.targets x.files t := by
    rw [Library.targets, present]
    exact Target.mem_within_iff.mpr ⟨text, htext, hu⟩
  rw [hx.next t named mem]
  exact ⟨Library.names_of_mem_targets named target, List.mem_map_of_mem target⟩

/-- The references in the value of a target that is due lead to targets that are due. -/
theorem Due.admits (hx : x.Charted g) {t : Target} (due : Due x g entry t) {source : Source}
    {v : Json} (present : x.library.find? t = some (source, v)) :
    Admits x g entry source v.references := by
  intro text htext u hu
  obtain ⟨named, next⟩ := hx.mem_next due.1 due.2.1 present htext hu
  refine ⟨named, hx.closed _ _ next, ?_⟩
  intro key hkey
  exact (due.2.2 key hkey).tail next

theorem Due.self {t : Target} (due : Due x g entry t) : Due x g (some t.key) t := by
  refine ⟨due.1, due.2.1, ?_⟩
  rintro _ ⟨⟩
  exact .refl

/-! ### Entries -/

/-- A trace enters no key twice, none that was known before, and only keys that the entry leads to and
that do not lead back. -/
structure Opened (g : ReferenceGraph) (entry : Option String) (s : Expansion) (a : Trace) : Prop where
  nodup : a.opened.Nodup
  fresh : ∀ k ∈ a.opened, k ∉ s.done.map (·.1)
  reach : ∀ k ∈ a.opened, ∀ key ∈ entry, g.Reaches key k ∧ ¬g.Reaches k key

namespace Opened

variable {s s' : Expansion} {a b : Trace}

theorem nil : Opened g entry s .nil :=
  ⟨List.nodup_nil, by simp, by simp⟩

theorem next {task : Task} {r : Json} (h : Opened g entry s a) (run : Runs x task s r s' a)
    (h' : Opened g entry s' b) : Opened g entry s (a.next b) := by
  have known := run.done_eq
  refine ⟨?_, ?_, ?_⟩
  · rw [Trace.opened_next, List.nodup_append]
    -- What the first run entered is known to the second one.
    refine ⟨h'.nodup, h.nodup, ?_⟩
    rintro k hb k' ha rfl
    apply h'.fresh k hb
    rw [known]
    exact List.mem_append_left _ ha
  · intro k hk
    rw [Trace.opened_next] at hk
    rcases List.mem_append.mp hk with hb | ha
    · intro hd
      apply h'.fresh k hb
      rw [known]
      exact List.mem_append_right _ hd
    · exact h.fresh k ha
  · intro k hk
    rw [Trace.opened_next] at hk
    rcases List.mem_append.mp hk with hb | ha
    · exact h'.reach k hb
    · exact h.reach k ha

/-- What is entered below an entry does not lead back to it, so it is not entered again. -/
theorem entered {t : Target} (h : Opened g (some t.key) (x.enter t.key s) a)
    (standing : Standing x g entry path s) (hx : x.Charted g) (due : Due x g entry t)
    (step : x.step s t.key = .enter) : Opened g entry s (a.entered t.key) := by
  obtain ⟨-, unknown⟩ := taken step
  refine ⟨?_, ?_, ?_⟩
  · rw [Trace.opened_entered, List.nodup_cons]
    exact ⟨fun hk => (h.reach t.key hk t.key rfl).2 .refl, h.nodup⟩
  · rw [Trace.opened_entered, List.forall_mem_cons]
    refine ⟨fun hk => ?_, h.fresh⟩
    rw [← ReferenceGraph.isSome_lookup_iff, unknown] at hk
    cases hk
  · rw [Trace.opened_entered, List.forall_mem_cons]
    have away := standing.not_reaches hx due step
    refine ⟨fun key hkey => ⟨due.2.2 key hkey, away key hkey⟩, ?_⟩
    intro k hk key hkey
    obtain ⟨onward, -⟩ := h.reach k hk t.key rfl
    exact ⟨(due.2.2 key hkey).trans onward, fun back => away key hkey (onward.trans back)⟩

end Opened

/-- A run enters no component twice at one key. -/
theorem Runs.opened (hx : x.Charted g) {task : Task} {s s' : Expansion} {r : Json} {a : Trace}
    (run : Runs x task s r s' a) (h : Standing x g entry path s) (fits : Fits x g entry task) :
    Opened g entry s a := by
  induction run generalizing entry path with
  | array _ ih => exact ih h fits
  | object _ _ ih => exact ih h fits.members
  | overlaid found run rest ih ih' =>
    exact (ih h (fits.reference found)).next run (ih' (h.after run) fits.members)
  | replaced found _ _ ih => exact ih h (fits.reference found)
  | item run rest ih ih' | member run rest ih ih' =>
    obtain ⟨first, others⟩ := Admits.append.mp fits
    exact (ih h first).next run (ih' (h.after run) others)
  | skipped _ ih => exact ih h (Admits.append.mp fits).2
  | set _ run rest ih ih' =>
    obtain ⟨first, others⟩ := Admits.append.mp fits
    exact (ih h first).next run (ih' (h.after run) others)
  | deeper good step _ ih =>
    have due := fits _ List.mem_cons_self _ good
    obtain ⟨nodup, fresh, reach⟩ := ih (h.deeper due step) due
    exact ⟨nodup, fresh, reach⟩
  | entered good step _ ih =>
    have due := fits _ List.mem_cons_self _ good
    exact (ih (h.entered hx due step) due.self).entered h hx due step
  | found present _ ih => exact ih h (Due.admits hx fits present)
  | _ => exact .nil

/-! ### Fuel -/

section Fuel

variable {put : Target → String → Expansion → Json × Expansion} {n : Nat} {source : Source}

/-- `put` expands the values of targets in `n` more targets than are open. -/
def Puts (x : Expander) (g : ReferenceGraph)
    (put : Target → String → Expansion → Json × Expansion) (n : Nat) : Prop :=
  ∀ {entry path s t} (text : String), Standing x g entry path s → Due x g entry t →
    g.keys.length < n + path.length →
      ∃ a, Runs x (.target t text) s (put t text s).1 (put t text s).2 a

theorem runs_replace (hx : x.Charted g) (hput : Puts x g put n) {text : String} {s : Expansion}
    (h : Standing x g entry path s) (fits : Admits x g entry source [text])
    (hn : g.keys.length ≤ n + path.length) :
    ∃ a, Runs x (.reference source text) s (x.replace put source text s).1
      (x.replace put source text s).2 a := by
  unfold replace
  cases hp : Target.parse x.files source text with
  | error e => exact ⟨_, .broken hp⟩
  | ok t =>
    have due := fits text List.mem_cons_self t hp
    dsimp only
    cases hstep : x.step s t.key with
    | cut => exact ⟨_, .cut hp hstep⟩
    | below =>
      obtain ⟨a, run⟩ := hput text (h.deeper due hstep) due (by
        rw [List.length_cons]
        omega)
      exact ⟨_, .deeper hp hstep run⟩
    | known v => exact ⟨_, .known hp hstep⟩
    | enter =>
      obtain ⟨a, run⟩ := hput text (h.entered hx due hstep) due.self (by
        rw [List.length_cons]
        omega)
      exact ⟨_, .entered hp hstep run⟩

mutual

theorem runs_expandWith (hx : x.Charted g) (hput : Puts x g put n) : ∀ {v : Json} {s : Expansion},
    Standing x g entry path s → Admits x g entry source v.references →
    g.keys.length ≤ n + path.length →
      ∃ a, Runs x (.value source v) s (expandWith x put source v s).1
        (expandWith x put source v s).2 a
  | .obj ⟨members⟩, s, h, fits, hn => by
    rw [expandWith]
    cases hr : Json.referenceOf? members with
    | none =>
      obtain ⟨a, run⟩ := runs_expandMembers hx hput h fits.members hn
      exact ⟨_, .object hr run⟩
    | some text =>
      obtain ⟨a, run⟩ := runs_replace hx hput h (fits.reference hr) hn
      dsimp only
      split
      · next target s₁ he =>
        rw [he] at run
        obtain ⟨b, rest⟩ := runs_overlay hx hput (h.after run) fits.members hn
        exact ⟨_, .overlaid hr run rest⟩
      · next other => exact ⟨_, .replaced hr run fun target he => other target _ (Prod.ext he rfl)⟩
  | .arr items, s, h, fits, hn => by
    obtain ⟨a, run⟩ := runs_expandItems hx hput h fits hn
    exact ⟨_, .array run⟩
  | .null, s, _, _, _ | .bool _, s, _, _, _ | .int _, s, _, _, _ | .float _, s, _, _, _
  | .str _, s, _, _, _ => ⟨_, .leaf (by simp) (by simp)⟩

theorem runs_expandItems (hx : x.Charted g) (hput : Puts x g put n) :
    ∀ {items : List Json} {s : Expansion},
    Standing x g entry path s → Admits x g entry source (Json.itemReferences items) →
    g.keys.length ≤ n + path.length →
      ∃ a, Runs x (.items source items) s (.arr (expandItems x put source items s).1)
        (expandItems x put source items s).2 a
  | [], s, _, _, _ => ⟨_, .noItem⟩
  | v :: items, s, h, fits, hn => by
    obtain ⟨first, others⟩ := Admits.append.mp fits
    obtain ⟨a, run⟩ := runs_expandWith hx hput h first hn
    obtain ⟨b, rest⟩ := runs_expandItems hx hput (h.after run) others hn
    exact ⟨_, .item run rest⟩

theorem runs_expandMembers (hx : x.Charted g) (hput : Puts x g put n) :
    ∀ {members : List (String × Json)} {s : Expansion},
    Standing x g entry path s → Admits x g entry source (Json.memberReferences members) →
    g.keys.length ≤ n + path.length →
      ∃ a, Runs x (.members source members) s (.obj ⟨(expandMembers x put source members s).1⟩)
        (expandMembers x put source members s).2 a
  | [], s, _, _, _ => ⟨_, .noMember⟩
  | (k, v) :: members, s, h, fits, hn => by
    obtain ⟨first, others⟩ := Admits.append.mp fits
    obtain ⟨a, run⟩ := runs_expandWith hx hput h first hn
    obtain ⟨b, rest⟩ := runs_expandMembers hx hput (h.after run) others hn
    exact ⟨_, .member run rest⟩

theorem runs_overlay (hx : x.Charted g) (hput : Puts x g put n) :
    ∀ {members : List (String × Json)} {target : Json.Members} {s : Expansion},
    Standing x g entry path s → Admits x g entry source (Json.memberReferences members) →
    g.keys.length ≤ n + path.length →
      ∃ a, Runs x (.beside source members target) s
        (.obj (overlay x put source members target s).1) (overlay x put source members target s).2 a
  | [], target, s, _, _, _ => ⟨_, .nothingBeside⟩
  | (k, v) :: members, target, s, h, fits, hn => by
    obtain ⟨first, others⟩ := Admits.append.mp fits
    rw [overlay]
    by_cases hk : k = "$ref"
    · rw [if_pos hk]
      obtain ⟨a, rest⟩ := runs_overlay hx hput h others hn
      rw [hk]
      exact ⟨_, .skipped rest⟩
    · rw [if_neg hk]
      obtain ⟨a, run⟩ := runs_expandWith hx hput h first hn
      obtain ⟨b, rest⟩ := runs_overlay hx hput (h.after run) others hn
      exact ⟨_, .set hk run rest⟩

end

end Fuel

/-- With fuel for every key that is not open yet, the value of a target is expanded to the end. -/
theorem puts_inline (hx : x.Charted g) (n : Nat) : Puts x g (x.inline n) n := by
  induction n with
  -- The keys of the path are distinct, so they are not more than there are keys.
  | zero =>
    intro entry path s t text h due hn
    have := h.length_le
    omega
  | succ n ih =>
    intro entry path s t text h due hn
    unfold inline
    split
    · next hf => exact ⟨_, .missing hf⟩
    · next hz => cases hz
    · next source v fuel hf hs =>
      cases hs
      obtain ⟨a, run⟩ := runs_expandWith hx ih h (due.admits hx hf) (by omega)
      exact ⟨a, .found hf run⟩

/-- An expansion from outside all components is a run. -/
theorem runs_expand (hx : x.Charted g) {n : Nat} (hn : g.keys.length ≤ n) {source : Source} {v : Json}
    (fits : Admits x g none source v.references) :
    ∃ a, Runs x (.value source v) .start (x.expand n source v .start).1
      (x.expand n source v .start).2 a :=
  runs_expandWith hx (puts_inline hx n) (.outside rfl) fits hn

end Expander

end ToolGateway
