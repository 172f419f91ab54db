import ToolGateway.Proofs.Json.Equality
import ToolGateway.Reload.Diff

/-!
# What is found among the published tools

Every change of the published tools is described by what is found under a name afterwards: adding a
tool changes what is found under its name alone, removing a name leaves nothing under it, and adding
many tools leaves the last one of each name. A whole list of changes first removes and then adds, so
`get?_after_changes` says in one equation what is found after it.
-/

namespace ToolGateway

variable {σ : Type}

/-! ### The last tool of a name -/

namespace Catalog

@[simp] theorem last?_nil (name : String) : last? [] name = none := rfl

theorem last?_cons (t : Tool) (c : Catalog) (name : String) :
    last? (t :: c) name = (last? c name).or (if t.name = name then some t else none) := by
  rw [last?, List.reverse_cons, List.find?_append]
  by_cases h : t.name = name
  · simp [last?, h]
  · have hb : (t.name == name) = false := by simpa using h
    simp [last?, hb, h]

theorem last?_eq_none_iff {c : Catalog} {name : String} :
    c.last? name = none ↔ ∀ t ∈ c, t.name ≠ name := by
  simp [last?]

theorem name_of_last? {c : Catalog} {name : String} {t : Tool} (h : c.last? name = some t) :
    t.name = name := by
  simpa using List.find?_some h

theorem mem_of_last? {c : Catalog} {name : String} {t : Tool} (h : c.last? name = some t) :
    t ∈ c :=
  List.mem_reverse.mp (List.mem_of_find?_eq_some h)

/-- Leaving out tools of other names does not change the last tool of a name. -/
theorem last?_filter_of_kept {c : Catalog} {name : String} {p : Tool → Bool}
    (h : ∀ t ∈ c, t.name = name → p t = true) : last? (c.filter p) name = last? c name := by
  induction c with
  | nil => rfl
  | cons t c ih =>
    have ih := ih fun u hu => h u (List.mem_cons_of_mem t hu)
    by_cases hp : p t = true
    · rw [List.filter_cons_of_pos hp, last?_cons, last?_cons, ih]
    · have ht : t.name ≠ name := fun e => hp (h t List.mem_cons_self e)
      rw [List.filter_cons_of_neg hp, last?_cons, ih]
      simp [ht]

/-- Leaving out every tool of a name leaves none of them. -/
theorem last?_filter_of_dropped {c : Catalog} {name : String} {p : Tool → Bool}
    (h : ∀ t ∈ c, t.name = name → p t = false) : last? (c.filter p) name = none := by
  rw [last?_eq_none_iff]
  intro t ht e
  obtain ⟨hc, hp⟩ := List.mem_filter.mp ht
  simp [h t hc e] at hp

/-- When no two tools have one name, a tool of the catalog is the last one of its name. -/
theorem last?_of_mem {c : Catalog} (hc : (c.map Tool.name).Nodup) {t : Tool} (ht : t ∈ c) :
    c.last? t.name = some t := by
  induction c with
  | nil => simp at ht
  | cons u c ih =>
    rw [List.map_cons, List.nodup_cons] at hc
    rw [last?_cons]
    rcases List.mem_cons.mp ht with rfl | ht
    · have : last? c t.name = none :=
        last?_eq_none_iff.mpr fun v hv e => hc.1 (List.mem_map.mpr ⟨v, hv, e⟩)
      simp [this]
    · simp [ih hc.2 ht]

end Catalog

/-! ### Single changes -/

namespace Published

theorem find?_put (new : Publication σ) (es : List (Publication σ)) (name : String) :
    (put new es).find? (·.tool.name == name) =
      if new.tool.name = name then some new else es.find? (·.tool.name == name) := by
  induction es with
  | nil => by_cases h : new.tool.name = name <;> simp [put, h]
  | cons e es ih =>
    rw [put]
    split
    · next he => by_cases h : new.tool.name = name <;> simp [h, he]
    · next he =>
      rw [List.find?_cons, ih, List.find?_cons]
      by_cases h : new.tool.name = name
      · have hb : (e.tool.name == name) = false := by
          rw [← h]
          simpa using he
        simp [h, hb]
      · simp [h]

@[simp] theorem get?_add (p : Published σ) (t : Tool) (name : String) :
    (p.add t).get? name = if t.name = name then some t else p.get? name := by
  simp only [get?, find?, add, find?_put]
  split <;> rfl

@[simp] theorem get?_remove (p : Published σ) (removed name : String) :
    (p.remove removed).2.get? name = if removed = name then Option.none else p.get? name := by
  simp only [get?, find?, remove, List.find?_filter]
  by_cases h : removed = name
  · simp [h]
  · rw [if_neg h]
    congr 2
    funext e
    by_cases he : e.tool.name = name
    · simp [he, Ne.symm h]
    · simp [he]

@[simp] theorem get?_notify (reaches : Peer → Bool) (p : Published σ) (name : String) :
    (p.notify reaches).2.get? name = p.get? name := rfl

@[simp] theorem get?_none (links : List (Link σ)) (handler : Handler σ) (s : Sessions)
    (name : String) : (Published.none links handler s).get? name = Option.none := rfl

/-! ### Many changes -/

/-- Adding tools leaves the last one of each name. -/
theorem get?_addAll (p : Published σ) (tools : List Tool) (name : String) :
    (p.addAll tools).get? name = (Catalog.last? tools name).or (p.get? name) := by
  induction tools generalizing p with
  | nil => simp [addAll]
  | cons t tools ih =>
    rw [addAll, List.foldl_cons]
    rw [show List.foldl add (p.add t) tools = (p.add t).addAll tools from rfl, ih, get?_add,
      Catalog.last?_cons]
    cases Catalog.last? tools name <;> split <;> simp

/-- The published tools after changes, without the connections that were told. -/
def after (reaches : Peer → Bool) (p : Published σ) (changes : List Change) : Published σ :=
  (p.applyAll reaches changes).2

theorem after_eq_foldl (reaches : Peer → Bool) (p : Published σ) (changes : List Change) :
    p.after reaches changes = changes.foldl (fun p c => (p.apply reaches c).2) p := by
  -- Who was told is gathered on the side, and nothing depends on it.
  suffices h : ∀ (told : List Peer) (p : Published σ), (changes.foldl (fun acc c =>
      (acc.1 ++ (acc.2.apply reaches c).1, (acc.2.apply reaches c).2)) (told, p)).2 =
        changes.foldl (fun p c => (p.apply reaches c).2) p from
    h [] p
  induction changes with
  | nil => exact fun _ _ => rfl
  | cons c changes ih => exact fun _ _ => ih _ _

theorem after_append (reaches : Peer → Bool) (p : Published σ) (xs ys : List Change) :
    p.after reaches (xs ++ ys) = (p.after reaches xs).after reaches ys := by
  simp only [after_eq_foldl, List.foldl_append]

@[simp] theorem after_nil (reaches : Peer → Bool) (p : Published σ) :
    p.after reaches [] = p := rfl

theorem after_cons (reaches : Peer → Bool) (p : Published σ) (c : Change) (cs : List Change) :
    p.after reaches (c :: cs) = (p.apply reaches c).2.after reaches cs := by
  simp only [after_eq_foldl, List.foldl_cons]

theorem get?_after_remove (reaches : Peer → Bool) (p : Published σ) (names : List String)
    (name : String) :
    (p.after reaches (names.map .remove)).get? name =
      if name ∈ names then Option.none else p.get? name := by
  induction names generalizing p with
  | nil => simp
  | cons n names ih =>
    rw [List.map_cons, after_cons, ih]
    simp only [apply, get?_remove, List.mem_cons]
    by_cases hn : name ∈ names
    · simp [hn]
    · by_cases h : n = name
      · simp [h]
      · simp [hn, h, Ne.symm h]

theorem after_add (reaches : Peer → Bool) (p : Published σ) (tools : List Tool) :
    p.after reaches (tools.map .add) = p.addAll tools := by
  induction tools generalizing p with
  | nil => rfl
  | cons t tools ih =>
    rw [List.map_cons, after_cons, ih]
    rfl

/-- What is found after the changes of a difference: the last of the tools that were added, else
nothing under a name that was removed, else what was found before. -/
theorem get?_after_changes (reaches : Peer → Bool) (p : Published σ) (d : Diff) (c : Catalog)
    (name : String) :
    (p.after reaches (d.changes c)).get? name =
      (Catalog.last? (c.filter fun t => d.upserted.contains t.name) name).or
        (if name ∈ d.removed then Option.none else p.get? name) := by
  -- Telling the connections changes nothing that is found.
  have hn : ∀ q : Published σ,
      (q.after reaches (if d.isEmpty then [] else [.notify])).get? name = q.get? name := by
    intro q
    split
    · rfl
    · rw [after_cons, after_nil, apply, get?_notify]
  rw [Diff.changes, after_append, after_append, hn, after_add, get?_addAll, get?_after_remove]

end Published

end ToolGateway
