import ToolGateway.Proofs.Reference.Points

/-!
# What is remembered

An expansion remembers what an entry expanded to, and takes it from there when the key is met again.
The same algorithm without that memory (`expandAnew`) enters a component at every reference from
outside of it. Both come to the same value, and one finds a fault exactly when the other does
(`resolve_anew`): whatever is remembered of a key is what its target expands to from the start
(`Sound`), wherever it was met first. The induction carries this along a run of the one algorithm,
with the other one beside it (`Runs.anew`).
-/

namespace ToolGateway

/-! ### Expansion without memory -/

/-- The expansion without what is known. -/
def Expansion.forget (s : Expansion) : Expansion := { s with done := [] }

namespace Expander

mutual

/-- Goes through a value as an expansion does; `replace` replaces the references. -/
def expandBy (replace : Source → String → Expansion → Json × Expansion) (source : Source) :
    Json → Expansion → Json × Expansion
  | .obj ⟨members⟩, s =>
    match Json.referenceOf? members with
    | some reference =>
      match replace source reference s with
      | (.obj target, s) =>
        let (target, s) := overlayBy replace source members target s
        (.obj target, s)
      | result => result
    | none =>
      let (members, s) := membersBy replace source members s
      (.obj ⟨members⟩, s)
  | .arr items, s =>
    let (items, s) := itemsBy replace source items s
    (.arr items, s)
  | v, s => (v, s)

def itemsBy (replace : Source → String → Expansion → Json × Expansion) (source : Source) :
    List Json → Expansion → List Json × Expansion
  | [], s => ([], s)
  | v :: rest, s =>
    let (v, s) := expandBy replace source v s
    let (rest, s) := itemsBy replace source rest s
    (v :: rest, s)

def membersBy (replace : Source → String → Expansion → Json × Expansion) (source : Source) :
    List (String × Json) → Expansion → List (String × Json) × Expansion
  | [], s => ([], s)
  | (k, v) :: rest, s =>
    let (v, s) := expandBy replace source v s
    let (rest, s) := membersBy replace source rest s
    ((k, v) :: rest, s)

def overlayBy (replace : Source → String → Expansion → Json × Expansion) (source : Source) :
    List (String × Json) → Json.Members → Expansion → Json.Members × Expansion
  | [], target, s => (target, s)
  | (k, v) :: rest, target, s =>
    if k = "$ref" then overlayBy replace source rest target s
    else
      let (v, s) := expandBy replace source v s
      overlayBy replace source rest (target.insert k v) s

end

section

variable {x : Expander} {put : Target → String → Expansion → Json × Expansion} {source : Source}

mutual

/-- It is the way of the expansion when the references are replaced as there. -/
theorem expandBy_replace (v : Json) (s : Expansion) :
    expandBy (x.replace put) source v s = expandWith x put source v s := by
  match v with
  | .obj ⟨members⟩ =>
    rw [expandBy, expandWith]
    cases Json.referenceOf? members with
    | none => simp only [membersBy_replace]
    | some text =>
      dsimp only
      cases x.replace put source text s with
      | mk r after =>
        cases r with
        | obj target => simp only [overlayBy_replace]
        | _ => rfl
  | .arr items => rw [expandBy, expandWith, itemsBy_replace]
  | .null | .bool _ | .int _ | .float _ | .str _ => rfl

theorem itemsBy_replace (items : List Json) (s : Expansion) :
    itemsBy (x.replace put) source items s = expandItems x put source items s := by
  match items with
  | [] => rfl
  | v :: rest => simp only [itemsBy, expandItems, expandBy_replace, itemsBy_replace]

theorem membersBy_replace (members : List (String × Json)) (s : Expansion) :
    membersBy (x.replace put) source members s = expandMembers x put source members s := by
  match members with
  | [] => rfl
  | (k, v) :: rest => simp only [membersBy, expandMembers, expandBy_replace, membersBy_replace]

theorem overlayBy_replace (members : List (String × Json)) (target : Json.Members) (s : Expansion) :
    overlayBy (x.replace put) source members target s = overlay x put source members target s := by
  match members with
  | [] => rfl
  | (k, v) :: rest => simp only [overlayBy, overlay, expandBy_replace, overlayBy_replace]

end

end

/-- Replaces a reference as if nothing were known: what was recorded is dropped before it could be
read. -/
def replaceAnew (x : Expander) (put : Target → String → Expansion → Json × Expansion)
    (source : Source) (reference : String) (s : Expansion) : Json × Expansion :=
  x.replace put source reference s.forget

/-- Expands the value of a target without memory. -/
def inlineAnew (x : Expander) : Nat → Target → String → Expansion → Json × Expansion
  | fuel, t, reference, s =>
    match x.library.find? t, fuel with
    | none, _ => (nothing, s.fail s!"Unresolved $ref '{reference}' (doc {t.source.display})")
    | some _, 0 => (nothing, s)
    | some (source, v), fuel + 1 => expandBy (x.replaceAnew (x.inlineAnew fuel)) source v s

/-- Expands a value of the document from a source without memory. -/
def expandAnew (x : Expander) (fuel : Nat) (source : Source) (v : Json) (s : Expansion) :
    Json × Expansion :=
  expandBy (x.replaceAnew (x.inlineAnew fuel)) source v s

/-- Does a task without memory. -/
def anew (x : Expander) (fuel : Nat) : Task → Expansion → Json × Expansion
  | .value source v, s => x.expandAnew fuel source v s
  | .items source vs, s =>
    let (vs, s) := itemsBy (x.replaceAnew (x.inlineAnew fuel)) source vs s
    (.arr vs, s)
  | .members source ms, s =>
    let (ms, s) := membersBy (x.replaceAnew (x.inlineAnew fuel)) source ms s
    (.obj ⟨ms⟩, s)
  | .beside source ms target, s =>
    let (ms, s) := overlayBy (x.replaceAnew (x.inlineAnew fuel)) source ms target s
    (.obj ms, s)
  | .reference source text, s => x.replaceAnew (x.inlineAnew fuel) source text s
  | .target t text, s => x.inlineAnew fuel t text s

/-! ### Steps without memory -/

section

variable {x : Expander} {n : Nat} {source : Source} {s s₀ s₁ s₂ : Expansion} {t u : Target}

/-- Without memory every reference from outside of the present component enters. -/
theorem step_forget (same : s₀.scope = s.scope) (key : String) :
    x.step s₀.forget key = match x.step s key with
      | .known _ => .enter
      | step => step := by
  simp only [step, Expansion.forget, same, List.lookup_nil]
  cases s.scope with
  | none => cases s.done.lookup key <;> rfl
  | some scope =>
    dsimp only
    split
    · split <;> rfl
    · cases s.done.lookup key <;> rfl

theorem scope_visit_forget (same : s₀.scope = s.scope) (key : String) :
    (visit key s₀.forget).scope = (visit key s).scope := congrArg (Option.map _) same

theorem anew_leaf {v : Json} (flat : ∀ items, v ≠ .arr items)
    (plain : ∀ members, v ≠ .obj members) : x.anew n (.value source v) s = (v, s) := by
  cases v with
  | arr items => exact absurd rfl (flat items)
  | obj members => exact absurd rfl (plain members)
  | _ => rfl

theorem anew_array {items : List Json} :
    x.anew n (.value source (.arr items)) s = x.anew n (.items source items) s := by
  rw [anew, expandAnew, expandBy, anew]

theorem anew_object {members : List (String × Json)} (plain : Json.referenceOf? members = none) :
    x.anew n (.value source (.obj ⟨members⟩)) s = x.anew n (.members source members) s := by
  rw [anew, expandAnew, expandBy, plain, anew]

theorem anew_overlaid {members : List (String × Json)} {text : String} {target : Json.Members}
    (found : Json.referenceOf? members = some text)
    (h : x.anew n (.reference source text) s = (.obj target, s₁)) :
    x.anew n (.value source (.obj ⟨members⟩)) s = x.anew n (.beside source members target) s₁ := by
  rw [anew] at h
  rw [anew, expandAnew, expandBy, found]
  dsimp only
  rw [h, anew]

theorem anew_replaced {members : List (String × Json)} {text : String} {r : Json}
    (found : Json.referenceOf? members = some text)
    (h : x.anew n (.reference source text) s = (r, s₁)) (other : ∀ target, r ≠ .obj target) :
    x.anew n (.value source (.obj ⟨members⟩)) s = (r, s₁) := by
  rw [anew] at h
  rw [anew, expandAnew, expandBy, found]
  dsimp only
  rw [h]
  cases r with
  | obj target => exact absurd rfl (other target)
  | _ => rfl

theorem anew_item {v r : Json} {items results : List Json}
    (h : x.anew n (.value source v) s = (r, s₁))
    (rest : x.anew n (.items source items) s₁ = (.arr results, s₂)) :
    x.anew n (.items source (v :: items)) s = (.arr (r :: results), s₂) := by
  rw [anew, expandAnew] at h
  rw [anew, Prod.mk.injEq, Json.arr.injEq] at rest
  rw [anew, itemsBy, h]
  exact Prod.ext (congrArg (fun results => Json.arr (r :: results)) rest.1) rest.2

theorem anew_member {k : String} {v r : Json} {members results : List (String × Json)}
    (h : x.anew n (.value source v) s = (r, s₁))
    (rest : x.anew n (.members source members) s₁ = (.obj ⟨results⟩, s₂)) :
    x.anew n (.members source ((k, v) :: members)) s = (.obj ⟨(k, r) :: results⟩, s₂) := by
  rw [anew, expandAnew] at h
  rw [anew, Prod.mk.injEq, Json.obj.injEq, Dict.mk.injEq] at rest
  rw [anew, membersBy, h]
  exact Prod.ext (congrArg (fun results => Json.obj ⟨(k, r) :: results⟩) rest.1) rest.2

theorem anew_skipped {v : Json} {members : List (String × Json)} {target : Json.Members} :
    x.anew n (.beside source (("$ref", v) :: members) target) s =
      x.anew n (.beside source members target) s := by
  rw [anew, overlayBy, if_pos rfl, anew]

theorem anew_set {k : String} {v r : Json} {members : List (String × Json)} {target : Json.Members}
    (other : k ≠ "$ref") (h : x.anew n (.value source v) s = (r, s₁)) :
    x.anew n (.beside source ((k, v) :: members) target) s =
      x.anew n (.beside source members (target.insert k r)) s₁ := by
  rw [anew, expandAnew] at h
  rw [anew, overlayBy, if_neg other, h, anew]

theorem anew_missing {text : String} (absent : x.library.find? t = none) :
    x.anew n (.target t text) s =
      (nothing, s.fail s!"Unresolved $ref '{text}' (doc {t.source.display})") := by
  rw [anew]
  unfold inlineAnew
  rw [absent]

theorem anew_found {text : String} {v : Json} (present : x.library.find? t = some (source, v)) :
    x.anew (n + 1) (.target t text) s = x.anew n (.value source v) s := by
  show x.inlineAnew (n + 1) t text s = x.expandAnew n source v s
  unfold inlineAnew
  rw [present]
  rfl

/-- Targets that point to the same expand to the same, but for the text of a fault. -/
theorem inlineAnew_congr (same : x.library.find? t = x.library.find? u) (n : Nat)
    (text text' : String) (s : Expansion) :
    x.inlineAnew n t text s = x.inlineAnew n u text' s ∨ ∃ fault fault',
      x.inlineAnew n t text s = (nothing, s.fail fault) ∧
        x.inlineAnew n u text' s = (nothing, s.fail fault') := by
  unfold inlineAnew
  rw [same]
  cases x.library.find? u with
  | none => exact Or.inr ⟨_, _, rfl, rfl⟩
  | some found => cases n <;> exact Or.inl rfl

/-- A reference that enters is replaced by what its target expands to there. -/
theorem anew_enter {text : String} {v : Json} {o : Expansion}
    (good : Target.parse x.files source text = .ok t) (step : x.step s.forget t.key = .enter)
    (h : x.inlineAnew n t text (x.enter t.key s.forget) = (v, o)) :
    x.anew n (.reference source text) s = (v, leave s.scope t.key v o) := by
  rw [anew, replaceAnew, replace, good]
  dsimp only
  rw [step]
  dsimp only
  rw [h]
  rfl

end

/-! ### One algorithm beside the other -/

section

variable {x : Expander} {g : ReferenceGraph} {entry : Option String} {path : List String}
  {s s₁ s' s₀ o o' : Expansion} {t u : Target}

/-- One algorithm leads from `s` to `s'`, and the one without memory from `s₀` to `o`. They are in
the same scope then. The one without memory may find a fault again that is known; so no fault at all
means that it finds none, and when it finds none there is no new one. -/
structure Agrees (s s' s₀ o : Expansion) : Prop where
  scope : o.scope = s'.scope
  grows : s₀.faults <+: o.faults
  clean : s'.faults = [] → o.faults = s₀.faults
  clears : o.faults = s₀.faults → s'.faults = s.faults

namespace Agrees

theorem refl (same : s₀.scope = s.scope) : Agrees s s s₀ s₀ :=
  ⟨same, List.prefix_refl _, fun _ => rfl, fun _ => rfl⟩

theorem fail (same : s₀.scope = s.scope) (fault : String) :
    Agrees s (s.fail fault) s₀ (s₀.fail fault) :=
  ⟨same, List.prefix_append _ _, by simp [Expansion.fail], by simp [Expansion.fail]⟩

theorem of_forget (h : Agrees s s' s₀.forget o) : Agrees s s' s₀ o :=
  ⟨h.scope, h.grows, h.clean, h.clears⟩

theorem next (h : Agrees s s₁ s₀ o) (h' : Agrees s₁ s' o o') (more : s₁.faults <+: s'.faults) :
    Agrees s s' s₀ o' where
  scope := h'.scope
  grows := h.grows.trans h'.grows
  clean := by
    intro none
    rw [h'.clean none, h.clean (List.prefix_nil.mp (none ▸ more))]
  clears := by
    intro same
    -- No fault was added in the end, so none was added on the way.
    have first : o.faults = s₀.faults :=
      (h.grows.eq_of_length_le (same ▸ h'.grows.length_le)).symm
    rw [h'.clears (same.trans first.symm), h.clears first]

end Agrees

/-- Fuel for every key that is not open yet. -/
def Fueled (g : ReferenceGraph) (n : Nat) (path : List String) : Task → Prop
  | .target _ _ => g.keys.length < n + path.length
  | _ => g.keys.length ≤ n + path.length

/-- Without memory the target expands to the value whenever it is entered, and when all is clean no
fault is found. -/
def Renews (x : Expander) (g : ReferenceGraph) (t : Target) (text : String) (v : Json)
    (clean : Prop) : Prop :=
  ∀ n path s₀, Standing x g (some t.key) path (x.enter t.key s₀) →
    g.keys.length < n + path.length → ∃ o, x.inlineAnew n t text (x.enter t.key s₀) = (v, o) ∧
      s₀.faults <+: o.faults ∧ (clean → o.faults = s₀.faults)

/-- What is known of a key is what its target expands to without memory. -/
def Sound (x : Expander) (g : ReferenceGraph) (s : Expansion) : Prop :=
  ∀ e ∈ s.done, (∃ t, x.library.Names x.files t ∧ t.key ∈ g.keys ∧ t.key = e.1) ∧
    ∀ t, x.library.Names x.files t → t.key = e.1 →
      ∀ text, Renews x g t text e.2 (s.faults = [])

theorem Renews.congr {text : String} {v : Json} {clean : Prop} (h : Renews x g t text v clean)
    (key : u.key = t.key) (same : x.library.find? t = x.library.find? u) (text' : String) :
    Renews x g u text' v clean := by
  intro n path s₀ standing fuel
  rw [key] at standing ⊢
  obtain ⟨o, he, grows, none⟩ := h n path s₀ standing fuel
  rcases inlineAnew_congr same n text text' (x.enter t.key s₀) with he' | ⟨fault, fault', he', hf⟩
  · exact ⟨o, he' ▸ he, grows, none⟩
  · rw [he'] at he
    cases he
    refine ⟨_, hf, List.prefix_append _ _, fun hc => ?_⟩
    have := none hc
    simp [Expansion.fail, enter] at this

theorem Sound.mono (hs : Sound x g s) (same : s'.done = s.done)
    (clean : s'.faults = [] → s.faults = []) : Sound x g s' := by
  intro e he
  obtain ⟨named, all⟩ := hs e (same ▸ he)
  refine ⟨named, fun t ht hk text n path s₀ standing fuel => ?_⟩
  obtain ⟨o, h, grows, none⟩ := all t ht hk text n path s₀ standing fuel
  exact ⟨o, h, grows, fun hc => none (clean hc)⟩

theorem Sound.leave (hs : Sound x g s) (hk : x.Keyed) (due : Due x g entry t) {text : String}
    {r : Json} (h : Renews x g t text r (s.faults = [])) (outer : Option Scope) :
    Sound x g (leave outer t.key r s) := by
  refine List.forall_mem_cons.mpr ⟨⟨⟨t, due.1, due.2.1, rfl⟩, ?_⟩, hs⟩
  intro u hu key text'
  exact h.congr key (hk t u due.1 hu key.symm) text'

/-- Where an expansion stands is a matter of its scope. -/
theorem Standing.congr (h : Standing x g entry path s) (same : s₀.scope = s.scope) :
    Standing x g entry path s₀ := by
  cases h with
  | outside here => exact .outside (same.trans here)
  | inside here mem component kept nodup keys apart =>
    refine .inside (same.trans here) mem component ?_ nodup keys apart
    intro scope there
    exact kept scope (same ▸ there)

/-- A run keeps what is known sound, and without memory the same comes out. -/
theorem Runs.anew (hx : x.Charted g) (hk : x.Keyed) {task : Task} {r : Json} {a : Trace}
    (run : Runs x task s r s' a) (h : Standing x g entry path s) (follows : Follows x g entry task)
    (hs : Sound x g s) : Sound x g s' ∧ ∀ n s₀, s₀.scope = s.scope → Fueled g n path task →
      ∃ o, x.anew n task s₀ = (r, o) ∧ Agrees s s' s₀ o := by
  induction run generalizing entry path with
  | leaf flat plain =>
    exact ⟨hs, fun n s₀ same _ => ⟨s₀, anew_leaf flat plain, .refl same⟩⟩
  | array _ ih =>
    obtain ⟨hs, all⟩ := ih h follows hs
    refine ⟨hs, fun n s₀ same fuel => ?_⟩
    rw [anew_array]
    exact all n s₀ same fuel
  | object plain _ ih =>
    obtain ⟨hs, all⟩ := ih h follows.members hs
    refine ⟨hs, fun n s₀ same fuel => ?_⟩
    rw [anew_object plain]
    exact all n s₀ same fuel
  | overlaid found run rest ih ih' =>
    obtain ⟨hs, first⟩ := ih h (follows.reference found) hs
    obtain ⟨hs, second⟩ := ih' (h.after run) follows.members hs
    refine ⟨hs, fun n s₀ same fuel => ?_⟩
    obtain ⟨o, he, agrees⟩ := first n s₀ same fuel
    obtain ⟨o', he', agrees'⟩ := second n o agrees.scope fuel
    exact ⟨o', (anew_overlaid found he).trans he', agrees.next agrees' rest.faults_prefix⟩
  | replaced found _ other ih =>
    obtain ⟨hs, all⟩ := ih h (follows.reference found) hs
    refine ⟨hs, fun n s₀ same fuel => ?_⟩
    obtain ⟨o, he, agrees⟩ := all n s₀ same fuel
    exact ⟨o, anew_replaced found he other, agrees⟩
  | noItem => exact ⟨hs, fun n s₀ same _ => ⟨s₀, rfl, .refl same⟩⟩
  | item run rest ih ih' =>
    obtain ⟨link, link'⟩ := Links.append.mp follows
    obtain ⟨hs, first⟩ := ih h link hs
    obtain ⟨hs, second⟩ := ih' (h.after run) link' hs
    refine ⟨hs, fun n s₀ same fuel => ?_⟩
    obtain ⟨o, he, agrees⟩ := first n s₀ same fuel
    obtain ⟨o', he', agrees'⟩ := second n o agrees.scope fuel
    exact ⟨o', anew_item he he', agrees.next agrees' rest.faults_prefix⟩
  | noMember => exact ⟨hs, fun n s₀ same _ => ⟨s₀, rfl, .refl same⟩⟩
  | member run rest ih ih' =>
    obtain ⟨link, link'⟩ := Links.append.mp follows
    obtain ⟨hs, first⟩ := ih h link hs
    obtain ⟨hs, second⟩ := ih' (h.after run) link' hs
    refine ⟨hs, fun n s₀ same fuel => ?_⟩
    obtain ⟨o, he, agrees⟩ := first n s₀ same fuel
    obtain ⟨o', he', agrees'⟩ := second n o agrees.scope fuel
    exact ⟨o', anew_member he he', agrees.next agrees' rest.faults_prefix⟩
  | nothingBeside => exact ⟨hs, fun n s₀ same _ => ⟨s₀, rfl, .refl same⟩⟩
  | skipped _ ih =>
    obtain ⟨hs, all⟩ := ih h (Links.append.mp follows).2 hs
    refine ⟨hs, fun n s₀ same fuel => ?_⟩
    rw [anew_skipped]
    exact all n s₀ same fuel
  | set other run rest ih ih' =>
    obtain ⟨link, link'⟩ := Links.append.mp follows
    obtain ⟨hs, first⟩ := ih h link hs
    obtain ⟨hs, second⟩ := ih' (h.after run) link' hs
    refine ⟨hs, fun n s₀ same fuel => ?_⟩
    obtain ⟨o, he, agrees⟩ := first n s₀ same fuel
    obtain ⟨o', he', agrees'⟩ := second n o agrees.scope fuel
    exact ⟨o', (anew_set other he).trans he', agrees.next agrees' rest.faults_prefix⟩
  | @broken _ _ e s bad =>
    refine ⟨hs.mono rfl (by simp [Expansion.fail]), fun n s₀ same _ => ?_⟩
    have same : s₀.forget.scope = s.scope := same
    refine ⟨_, ?_, .of_forget (.fail same e.message)⟩
    rw [Expander.anew, replaceAnew, replace, bad]
  | cut good step =>
    refine ⟨hs, fun n s₀ same _ => ⟨s₀.forget, ?_, .of_forget (.refl same)⟩⟩
    rw [Expander.anew, replaceAnew, replace, good]
    dsimp only
    rw [step_forget same, step]
  | deeper good step _ ih =>
    have due := (follows _ List.mem_cons_self _ good).1
    obtain ⟨hs, all⟩ := ih (h.deeper due step) due hs
    refine ⟨hs, fun n s₀ same fuel => ?_⟩
    obtain ⟨o, he, agrees⟩ := all n _ (scope_visit_forget same _) (Nat.lt_succ_of_le fuel)
    refine ⟨o, ?_, agrees.scope, agrees.grows, agrees.clean, agrees.clears⟩
    rw [Expander.anew, replaceAnew, replace, good]
    dsimp only
    rw [step_forget same, step]
    exact he
  -- What is known was found in a state with the same scope, once it is entered.
  | @known _ _ t r s good step =>
    refine ⟨hs, fun n s₀ same fuel => ?_⟩
    have due := (follows _ List.mem_cons_self _ good).1
    have enters : x.step s₀.forget t.key = .enter := by rw [step_forget same, step]
    have outside : Standing x g _ _ s₀.forget := h.congr same
    have standing := outside.entered hx due enters
    obtain ⟨-, found⟩ := taken step
    obtain ⟨before, after, here, -⟩ := List.lookup_eq_some_iff.mp found
    have mem : (t.key, r) ∈ s.done := by simp [here]
    obtain ⟨o, he, grows, clean⟩ :=
      (hs _ mem).2 t due.1 rfl _ n _ _ standing (Nat.lt_succ_of_le fuel)
    exact ⟨_, anew_enter good enters he, same, grows, clean, fun _ => rfl⟩
  | @entered _ text t r s after _ good step _ ih =>
    have due := (follows _ List.mem_cons_self _ good).1
    obtain ⟨sound, all⟩ := ih (h.entered hx due step) due.self hs
    -- The target was entered here with some path, but any other one would do.
    have renews : Renews x g t text r (after.faults = []) := by
      intro n path s₀ standing fuel
      obtain ⟨-, all⟩ := ih (standing.congr rfl) due.self hs
      obtain ⟨o, he, agrees⟩ := all n (x.enter t.key s₀) rfl fuel
      exact ⟨o, he, agrees.grows, agrees.clean⟩
    refine ⟨sound.leave hk due renews _, fun n s₀ same fuel => ?_⟩
    have enters : x.step s₀.forget t.key = .enter := by rw [step_forget same, step]
    obtain ⟨o, he, agrees⟩ := all n (x.enter t.key s₀.forget) rfl (Nat.lt_succ_of_le fuel)
    exact ⟨_, anew_enter good enters he, same, agrees.grows, agrees.clean, agrees.clears⟩
  | missing absent =>
    refine ⟨hs.mono rfl (by simp [Expansion.fail]), fun n s₀ same _ => ?_⟩
    exact ⟨_, anew_missing absent, .fail same _⟩
  | found present _ ih =>
    obtain ⟨hs, all⟩ := ih h (Due.follows hx follows present) hs
    refine ⟨hs, fun n s₀ same fuel => ?_⟩
    cases n with
    -- The keys of the path are distinct, so they are not more than there are keys.
    | zero =>
      have bound := h.length_le
      have fuel : g.keys.length < 0 + path.length := fuel
      omega
    | succ n =>
      rw [anew_found present]
      refine all n s₀ same ?_
      have fuel : g.keys.length < n + 1 + path.length := fuel
      show g.keys.length ≤ n + path.length
      omega

/-- What is known stays sound when a run hands over. -/
theorem Sound.calls (hx : x.Charted g) (hk : x.Keyed) {task task' : Task}
    (placed : Placed x g task s) (hs : Sound x g s) (call : x.Calls task s task' s') :
    Sound x g s' := by
  rcases placed.before call with ⟨same, faults⟩ | ⟨_, _, _, ⟨_, _, standing, follows⟩, run⟩
  · exact hs.mono same fun none => faults ▸ none
  · exact (run.anew hx hk standing follows hs).1

theorem sound_start : Sound x g .start := by
  rintro e ⟨⟩

/-- At every point of an expansion what is known is sound. -/
theorem sound_at (hx : x.Charted g) (hk : x.Keyed) {task task' : Task}
    (placed : Placed x g task .start) (comes : x.Comes task .start task' s) : Sound x g s := by
  refine (comes.induct (fun task s => Placed x g task s ∧ Sound x g s)
    ⟨placed, sound_start⟩ ?_).2
  rintro task₁ s₁ task₂ s₂ ⟨placed, hs⟩ call
  exact ⟨placed.calls hx call, hs.calls hx hk placed call⟩

/-- What is known of a key is what each target with that key expands to from the start, with memory
and without. -/
theorem Sound.inline (hs : Sound x g s) (hx : x.Charted g) (hk : x.Keyed) {n : Nat}
    (fuel : g.keys.length ≤ n) {e : String × Json} (he : e ∈ s.done)
    (named : x.library.Names x.files t) (key : t.key = e.1) (text : String) :
    (x.inline n t text (x.enter t.key .start)).1 = e.2 ∧
      (x.inlineAnew n t text (x.enter t.key .start)).1 = e.2 := by
  obtain ⟨⟨u, -, mem, same⟩, all⟩ := hs e he
  have due : Due x g none t := ⟨named, by rwa [key, ← same], by rintro key ⟨⟩⟩
  have enters : x.step .start t.key = .enter := rfl
  have standing := Standing.entered (.outside rfl) hx due enters
  have enough : g.keys.length < n + [t.key].length := Nat.lt_succ_of_le fuel
  obtain ⟨o, expands, -, -⟩ := all t named key text n [t.key] .start standing enough
  obtain ⟨a, run⟩ := puts_inline hx n text standing due.self enough
  -- From the start nothing is known, so the run with memory agrees with the one without.
  obtain ⟨-, beside⟩ := run.anew hx hk standing due.self (by rintro e ⟨⟩)
  obtain ⟨o', expands', -⟩ := beside n (x.enter t.key .start) rfl enough
  rw [anew, expands] at expands'
  exact ⟨(congrArg Prod.fst expands').symm, congrArg Prod.fst expands⟩

end

end Expander

namespace Document

/-- Expands every reference of a description as `resolve` does, but without memory. -/
def resolveAnew (w : World) (root : Source) (d : Document) : Except Error Document := do
  let library ← Library.ofRoot w root d.root
  let graph := ReferenceGraph.ofLibrary w.files library root d.root
  let x : Expander := ⟨w.files, library, graph.components⟩
  let (v, s) := x.expandAnew (graph.edges.length + 1) root d.root .start
  if s.faults.isEmpty then return ⟨v⟩
  else throw (.invalidDocument root.display s.faults)

variable {files : Files} {location : String} {w : World} {root : Source} {d : Document}
  {l : Library}

/-- Resolving a description remembers nothing but what the same algorithm without memory finds. -/
structure Renewed (w : World) (root : Source) (d : Document) (l : Library) (fuel : Nat) : Prop where
  /-- The description expands to the same value without memory. -/
  value : ((Expander.ofLibrary w.files l root d.root).expand fuel root d.root .start).1 =
    ((Expander.ofLibrary w.files l root d.root).expandAnew fuel root d.root .start).1
  /-- There is the same answer without memory, or there is none with it and none without. -/
  answer : (d.resolve w root).toOption = (d.resolveAnew w root).toOption
  /-- At every point of the run, what is known of a key is that of a target, and it is what every
  target with that key expands to from the start, with memory and without. -/
  known : ∀ task s,
    (Expander.ofLibrary w.files l root d.root).Comes (.value root d.root) .start task s →
    ∀ e ∈ s.done, (∃ t, l.Names w.files t ∧ t.key = e.1) ∧
      ∀ t, l.Names w.files t → t.key = e.1 → ∀ text,
        ((Expander.ofLibrary w.files l root d.root).inline fuel t text
          ((Expander.ofLibrary w.files l root d.root).enter t.key .start)).1 = e.2 ∧
        ((Expander.ofLibrary w.files l root d.root).inlineAnew fuel t text
          ((Expander.ofLibrary w.files l root d.root).enter t.key .start)).1 = e.2

theorem resolveAnew_eq (hl : Library.ofRoot w root d.root = .ok l) {r : Json} {s : Expansion}
    (he : (Expander.ofLibrary w.files l root d.root).expandAnew
      ((ReferenceGraph.ofLibrary w.files l root d.root).edges.length + 1) root d.root .start =
        (r, s)) :
    d.resolveAnew w root = if s.faults.isEmpty then .ok ⟨r⟩
      else .error (.invalidDocument root.display s.faults) := by
  rw [resolveAnew, hl]
  unfold Expander.ofLibrary at he
  simp only [bind, Except.bind, he]
  rfl

/-- Resolving a description does not depend on what is remembered. -/
theorem resolve_anew (hroot : Source.parse files location = .ok root)
    (hl : Library.ofRoot w root d.root = .ok l) (signless : l.Signless) :
    Renewed w root d l ((ReferenceGraph.ofLibrary w.files l root d.root).edges.length + 1) := by
  obtain ⟨settled, hd⟩ := Library.ofRoot_spec hroot hl
  have hx := Expander.charted_ofLibrary settled signless hd
  have hk := Expander.keyed_ofLibrary settled signless root d.root
  have fuel : (ReferenceGraph.ofLibrary w.files l root d.root).keys.length ≤
      (ReferenceGraph.ofLibrary w.files l root d.root).edges.length + 1 := by
    rw [ReferenceGraph.keys, List.length_map]
    exact Nat.le_succ _
  obtain ⟨placed, r, s, a, expands, run, answer⟩ := exists_run hroot hl signless
  have outside := placed
  obtain ⟨entry, path, standing, follows⟩ := outside
  obtain ⟨-, beside⟩ := run.anew hx hk standing follows Expander.sound_start
  obtain ⟨o, expands', agrees⟩ := beside _ .start rfl (Nat.le_add_right_of_le fuel)
  have answer' := resolveAnew_eq hl expands'
  refine ⟨?_, ?_, ?_⟩
  · rw [expands]
    exact (congrArg Prod.fst expands').symm
  · rw [answer, answer']
    by_cases none : s.faults = []
    · have none' : o.faults = [] := agrees.clean none
      rw [none, none']
    · have some : ¬o.faults = [] := fun h => none (agrees.clears h)
      rw [← List.isEmpty_iff] at none some
      rw [if_neg none, if_neg some]
      rfl
  · intro task s comes e he
    have hs := Expander.sound_at hx hk placed comes
    obtain ⟨t, named, -, key⟩ := (hs e he).1
    refine ⟨⟨t, named, key⟩, fun t named key text => ?_⟩
    exact hs.inline hx hk fuel he named key text

namespace Sample

/-- What looks things up for the description that leads back to itself. -/
def cycling : Expander := .ofLibrary nowhere.files ⟨[(api, cyclic.root)]⟩ api cyclic.root

theorem ofRoot_cyclic : Library.ofRoot nowhere api cyclic.root = .ok ⟨[(api, cyclic.root)]⟩ := rfl

/-- When its expansion comes to the second member, it knows what the first one leads to. -/
theorem comes_known : ∃ task s, cycling.Comes (.value api cyclic.root) .start task s ∧
    s.done.isEmpty = false := by
  have hroot : Source.parse nowhere.files "api.json" = .ok api := rfl
  obtain ⟨settled, hd⟩ := Library.ofRoot_spec hroot ofRoot_cyclic
  have hx := Expander.charted_ofLibrary settled (signless _) hd
  have fits := Expander.admits_ofLibrary settled.readable hd nowhere.files
  have first : ∀ text ∈ (ref "#/b").references, text ∈ cyclic.root.references := by
    decide +kernel
  obtain ⟨a, run⟩ := Expander.runs_expand hx (Nat.le_refl _) fun text htext =>
    fits text (first text htext)
  refine ⟨_, _, (Expander.Comes.refl.tail (.members rfl)).tail (.nextMembers run), ?_⟩
  decide +kernel

end Sample

open Sample in
/-- The statement at a description whose references lead back to themselves, where something is
remembered. -/
theorem resolve_anew_cyclic :
    ∃ l, Source.parse nowhere.files "api.json" = .ok api ∧
      Library.ofRoot nowhere api cyclic.root = .ok l ∧ l.Signless ∧
      (∃ task s, (Expander.ofLibrary nowhere.files l api cyclic.root).Comes
        (.value api cyclic.root) .start task s ∧ s.done.isEmpty = false) ∧
      Renewed nowhere api cyclic l
        ((ReferenceGraph.ofLibrary nowhere.files l api cyclic.root).edges.length + 1) := by
  have hroot : Source.parse nowhere.files "api.json" = .ok api := rfl
  exact ⟨_, hroot, ofRoot_cyclic, signless _, comes_known,
    resolve_anew hroot ofRoot_cyclic (signless _)⟩

open Sample in
example : (cyclic.resolveAnew nowhere api).toOption.isSome = true := by decide +kernel

end Document

end ToolGateway
