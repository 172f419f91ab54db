import Mathlib.Data.List.Induction
import ToolGateway.Proofs.Dict
import ToolGateway.Proofs.Tool.Names

/-!
# Published tools as an ordered dictionary

The published tools stand in a list, and each carries the chain that was built for it when it was
published. Whatever is added and removed, in any order, the list is that of a dictionary by the names
of the tools: an added tool takes the place of the one with its name or comes last, a removed one
leaves the others where they are, and the chain of each is its own (`Published.Mirrors`). What is
found under a name is the tool that was added last, unless the name was removed since
(`Published.get?_after_eq_some_iff`). The main statement, `published_ordered`, puts this together
with what a call leads to.
-/

namespace ToolGateway

variable {σ : Type}

/-! ### What changes leave behind -/

namespace Change

/-- Whether a change is about a name. -/
def concerns (name : String) : Change → Bool
  | .add t => t.name == name
  | .remove removed => removed == name
  | .notify => false

/-- The tool that a change adds. -/
def added? : Change → Option Tool
  | .add t => some t
  | _ => none

/-- A tool was added by some changes, and no later one is about its name. -/
def Stands (changes : List Change) (t : Tool) : Prop :=
  ∃ before after, changes = before ++ .add t :: after ∧ ∀ c ∈ after, c.concerns t.name = false

theorem added?_eq_some_iff {c : Change} {t : Tool} : c.added? = some t ↔ c = .add t := by
  cases c <;> simp [added?]

theorem concerns_add (t : Tool) : (Change.add t).concerns t.name = true := beq_self_eq_true _

theorem not_stands_nil (t : Tool) : ¬Stands [] t := by
  rintro ⟨before, after, h, -⟩
  cases before <;> cases h

/-- After one more change a tool stands when that change added it, or stood before when it is about
another name. -/
theorem stands_concat_iff {changes : List Change} {c : Change} {t : Tool} :
    Stands (changes ++ [c]) t ↔ c = .add t ∨ c.concerns t.name = false ∧ Stands changes t := by
  constructor
  · rintro ⟨before, after, h, later⟩
    rcases List.eq_nil_or_concat' after with rfl | ⟨after, last, rfl⟩
    · obtain ⟨-, h⟩ := List.append_inj' h rfl
      exact Or.inl (List.singleton_inj.mp h)
    · rw [← List.cons_append, ← List.append_assoc] at h
      obtain ⟨rfl, same⟩ := List.append_inj' h rfl
      obtain rfl := List.singleton_inj.mp same
      obtain ⟨later, other⟩ := List.forall_mem_append.mp later
      exact Or.inr ⟨other c List.mem_cons_self, before, after, rfl, later⟩
  · rintro (rfl | ⟨other, before, after, rfl, later⟩)
    · exact ⟨changes, [], rfl, fun d hd => by cases hd⟩
    · refine ⟨before, after ++ [c], List.append_assoc before _ [c], ?_⟩
      exact List.forall_mem_append.mpr ⟨later, List.forall_mem_singleton.mpr other⟩

/-- Makes a change in a dictionary of tools. -/
def record (d : Dict Tool) : Change → Dict Tool
  | .add t => d.insert t.name t
  | .remove name => d.erase name
  | .notify => d

end Change

/-- The dictionary that some changes lead to. -/
def Change.recordAll (changes : List Change) : Dict Tool := changes.foldl Change.record .empty

/-! ### The published tools and the dictionary -/

namespace Published

/-- A tool with the chain that is built for it. -/
def publication (links : List (Link σ)) (handler : Handler σ) (t : Tool) : Publication σ :=
  ⟨t, Link.chain (t.link handler) links⟩

/-- What a call of a tool leads to: it goes through the links in their order, and then to the tool.
-/
def served (links : List (Link σ)) (handler : Handler σ) (t : Tool) (ctx : Context)
    (call : ToolCall) : StateM σ ToolResult := do
  let ctx := { ctx with tool := call.name, operation := some t.operation }
  match ← Link.run (Link.chain (t.link handler) links) ctx call with
  | .ok result => return result
  | .error e => return .failure e.message

/-- The published tools are those of a dictionary, each under its name and with its own chain. -/
structure Mirrors (links : List (Link σ)) (handler : Handler σ) (p : Published σ)
    (d : Dict Tool) : Prop where
  links_eq : p.links = links
  handler_eq : p.handler = handler
  nodup : d.keys.Nodup
  named : ∀ e ∈ d.entries, e.1 = e.2.name
  entries_eq : p.entries = d.values.map (publication links handler)

variable {links : List (Link σ)} {handler : Handler σ} {p : Published σ} {d : Dict Tool}

theorem put_publication (t : Tool) {es : List (String × Tool)} (named : ∀ e ∈ es, e.1 = e.2.name) :
    put (publication links handler t) ((es.map (·.2)).map (publication links handler)) =
      ((Dict.put t.name t es).map (·.2)).map (publication links handler) := by
  induction es with
  | nil => rfl
  | cons e es ih =>
    obtain ⟨k, u⟩ := e
    obtain ⟨rfl : k = u.name, rest⟩ := List.forall_mem_cons.mp named
    rw [List.map_cons, List.map_cons, put, Dict.put]
    show (if u.name = t.name then _ else _) = _
    split
    · rfl
    · rw [ih rest]
      rfl

theorem Mirrors.names_eq (h : p.Mirrors links handler d) : p.names = d.keys := by
  rw [names, h.entries_eq, List.map_map, Dict.values, List.map_map, Dict.keys]
  exact List.map_congr_left fun e he => (h.named e he).symm

theorem Mirrors.add (h : p.Mirrors links handler d) (t : Tool) :
    (p.add t).Mirrors links handler (d.insert t.name t) where
  links_eq := h.links_eq
  handler_eq := h.handler_eq
  nodup := Dict.nodup_keys_insert h.nodup
  named e he := by
    rcases Dict.mem_put he with rfl | he
    · rfl
    · exact h.named e he
  entries_eq := by
    show put ⟨t, Link.chain (t.link p.handler) p.links⟩ p.entries = _
    rw [h.handler_eq, h.links_eq, h.entries_eq]
    exact put_publication t h.named

theorem Mirrors.remove (h : p.Mirrors links handler d) (name : String) :
    (p.remove name).2.Mirrors links handler (d.erase name) where
  links_eq := h.links_eq
  handler_eq := h.handler_eq
  nodup := Dict.nodup_keys_erase h.nodup
  named e he := by
    rw [Dict.erase, Dict.drop_eq_filter h.nodup] at he
    exact h.named e (List.mem_of_mem_filter he)
  entries_eq := by
    show p.entries.filter (·.tool.name != name) = _
    rw [h.entries_eq, Dict.values, Dict.values, Dict.erase, Dict.drop_eq_filter h.nodup,
      List.map_map, List.map_map, List.filter_map]
    congr 1
    refine List.filter_congr fun e he => ?_
    rw [h.named e he]
    rfl

theorem Mirrors.apply (h : p.Mirrors links handler d) (reaches : Peer → Bool) (c : Change) :
    (p.apply reaches c).2.Mirrors links handler (c.record d) := by
  cases c with
  | add t => exact h.add t
  | remove name => exact h.remove name
  | notify => exact ⟨h.links_eq, h.handler_eq, h.nodup, h.named, h.entries_eq⟩

theorem after_concat (reaches : Peer → Bool) (p : Published σ) (changes : List Change)
    (c : Change) :
    p.after reaches (changes ++ [c]) = ((p.after reaches changes).apply reaches c).2 := by
  rw [after_append, after_cons, after_nil]

/-- Whatever is added and removed, the published tools are those of the dictionary that the same
changes lead to. -/
theorem mirrors_after (links : List (Link σ)) (handler : Handler σ) (sessions : Sessions)
    (reaches : Peer → Bool) (changes : List Change) :
    ((none links handler sessions).after reaches changes).Mirrors links handler
      (Change.recordAll changes) := by
  induction changes using List.reverseRecOn with
  | nil =>
    refine ⟨rfl, rfl, .nil, ?_, rfl⟩
    intro e he
    cases he
  | append_singleton changes c ih =>
    rw [after_concat, Change.recordAll, List.foldl_concat]
    exact ih.apply reaches c

/-! ### What is found and called -/

theorem Mirrors.find?_eq (h : p.Mirrors links handler d) (name : String) :
    p.find? name = (p.get? name).map (publication links handler) := by
  rw [get?, find?, h.entries_eq, List.find?_map, Option.map_map, Option.map_map]
  rfl

theorem get?_apply (reaches : Peer → Bool) (p : Published σ) (c : Change) (name : String) :
    (p.apply reaches c).2.get? name = if c.concerns name then c.added? else p.get? name := by
  cases c with
  | add t => simp [apply, Change.concerns, Change.added?]
  | remove removed => simp [apply, Change.concerns, Change.added?]
  | notify => rfl

/-- What is found under a name is the tool that was added last, unless the name was removed since.
-/
theorem get?_after_eq_some_iff (links : List (Link σ)) (handler : Handler σ) (sessions : Sessions)
    (reaches : Peer → Bool) (changes : List Change) (name : String) (t : Tool) :
    ((none links handler sessions).after reaches changes).get? name = some t ↔
      t.name = name ∧ Change.Stands changes t := by
  induction changes using List.reverseRecOn with
  | nil => simp [Change.not_stands_nil]
  | append_singleton changes c ih =>
    rw [after_concat, Change.stands_concat_iff]
    generalize (none links handler sessions).after reaches changes = p at ih
    rw [get?_apply]
    cases same : c.concerns name with
    | true =>
      rw [if_pos rfl, Change.added?_eq_some_iff]
      constructor
      · rintro rfl
        exact ⟨beq_iff_eq.mp same, Or.inl rfl⟩
      · rintro ⟨rfl, added | ⟨other, -⟩⟩
        · exact added
        · cases same.symm.trans other
    | false =>
      rw [if_neg Bool.false_ne_true, ih]
      constructor
      · rintro ⟨rfl, stands⟩
        exact ⟨rfl, Or.inr ⟨same, stands⟩⟩
      · rintro ⟨rfl, rfl | ⟨-, stands⟩⟩
        · cases same.symm.trans (Change.concerns_add t)
        · exact ⟨rfl, stands⟩

theorem Mirrors.get?_eq (h : p.Mirrors links handler d) (name : String) :
    p.get? name = d.get? name := by
  obtain ⟨entries⟩ := d
  rw [get?, find?, h.entries_eq, List.find?_map, Option.map_map]
  have named := h.named
  clear h
  show Option.map _ (List.find? _ (entries.map (·.2))) = Dict.lookup name entries
  induction entries with
  | nil => rfl
  | cons e entries ih =>
    obtain ⟨k, u⟩ := e
    obtain ⟨rfl : k = u.name, rest⟩ := List.forall_mem_cons.mp named
    rw [List.map_cons, Dict.lookup, ← ih rest]
    by_cases same : u.name = name
    · rw [if_pos same, List.find?_cons_of_pos (by simpa [publication] using same)]
      rfl
    · rw [if_neg same, List.find?_cons_of_neg (by simpa [publication] using same)]

theorem Mirrors.listing_eq (h : p.Mirrors links handler d) :
    p.listing = p.names.filterMap fun name => (p.get? name).map Tool.listing := by
  have found : ∀ e ∈ d.entries, (p.get? e.1).map Tool.listing = some e.2.listing := by
    intro e he
    rw [h.get?_eq, (Dict.get?_eq_some_iff h.nodup).mpr he]
    rfl
  calc p.listing
    _ = d.entries.map (·.2.listing) := by
      rw [listing, h.entries_eq, List.map_map, Dict.values, List.map_map]
      rfl
    _ = d.entries.filterMap fun e => (p.get? e.1).map Tool.listing := by
      rw [List.filterMap_congr found, List.filterMap_eq_map']
    _ = p.names.filterMap fun name => (p.get? name).map Tool.listing := by
      rw [h.names_eq, Dict.keys, List.filterMap_map]
      rfl

theorem Mirrors.call_eq (h : p.Mirrors links handler d) (ctx : Context) (call : ToolCall) :
    p.call ctx call =
      match p.get? call.name with
      | .none => pure (.failure ("Tool not found: " ++ call.name))
      | some t => served links handler t ctx call := by
  rw [Published.call, h.find?_eq]
  cases p.get? call.name <;> rfl

theorem remove_eq_true_iff {name : String} : (p.remove name).1 = true ↔ name ∈ p.names := by
  show ((p.entries.filter (·.tool.name != name)).length != p.entries.length) = true ↔ _
  rw [bne_iff_ne, Ne, List.length_filter_eq_length_iff, names, List.mem_map]
  simp only [bne_iff_ne, ne_eq, not_forall, not_not, exists_prop]

/-! ### The main statement -/

/-- What is known of the published tools after some changes. -/
structure Ordered (links : List (Link σ)) (handler : Handler σ) (changes : List Change)
    (p : Published σ) : Prop where
  /-- No name is there twice. -/
  nodup : p.names.Nodup
  /-- The names stand in the order of a dictionary in which the same changes were made. -/
  names_eq : p.names = (Change.recordAll changes).keys
  /-- Its tools are published, each with the chain that is built for it. -/
  entries_eq : p.entries = (Change.recordAll changes).values.map (publication links handler)
  /-- Under a name the tool is found that was added last, unless the name was removed since. -/
  found : ∀ name t, p.get? name = some t ↔ t.name = name ∧ Change.Stands changes t
  /-- Clients read what is found under each of the names. -/
  listed : p.listing = p.names.filterMap fun name => (p.get? name).map Tool.listing
  /-- A call goes to the tool that is found under its name. Without one, nothing but a failure comes
  of it, and the state that links and tools depend on stays as it is. -/
  called : ∀ ctx call, p.call ctx call =
    match p.get? call.name with
    | .none => pure (.failure ("Tool not found: " ++ call.name))
    | some t => served links handler t ctx call
  /-- An added tool keeps the place of its name or comes last, and touches no other name. -/
  added : ∀ t, (p.add t).names = (if t.name ∈ p.names then p.names else p.names ++ [t.name]) ∧
    (p.add t).find? t.name = some (publication links handler t) ∧
    ∀ name, name ≠ t.name → (p.add t).find? name = p.find? name
  /-- A name is removed when it is there, which is told, and no other name is touched. -/
  removed : ∀ name, ((p.remove name).1 = true ↔ name ∈ p.names) ∧
    (p.remove name).2.names = p.names.filter (· != name) ∧ (p.remove name).2.find? name = .none ∧
    ∀ other, other ≠ name → (p.remove name).2.find? other = p.find? other

end Published

open Published in
/-- Whatever is added and removed, the published tools are an ordered dictionary by their names, and
the chain of each tool is its own. -/
theorem published_ordered (links : List (Link σ)) (handler : Handler σ) (sessions : Sessions)
    (reaches : Peer → Bool) (changes : List Change) :
    Ordered links handler changes ((none links handler sessions).after reaches changes) := by
  have mirrors := mirrors_after links handler sessions reaches changes
  have found := get?_after_eq_some_iff links handler sessions reaches changes
  generalize (none links handler sessions).after reaches changes = p at mirrors found
  refine ⟨?nodup, mirrors.names_eq, mirrors.entries_eq, found, mirrors.listing_eq, mirrors.call_eq,
    ?added, ?removed⟩
  case nodup =>
    rw [mirrors.names_eq]
    exact mirrors.nodup
  case added =>
    intro t
    have after := mirrors.add t
    refine ⟨?_, ?_, ?_⟩
    · rw [after.names_eq, mirrors.names_eq, Dict.keys_insert]
    · rw [after.find?_eq, get?_add, if_pos rfl]
      rfl
    · intro name other
      rw [after.find?_eq, mirrors.find?_eq, get?_add, if_neg (Ne.symm other)]
  case removed =>
    intro name
    have after := mirrors.remove name
    refine ⟨remove_eq_true_iff, ?_, ?_, ?_⟩
    · rw [after.names_eq, mirrors.names_eq, Dict.keys_erase mirrors.nodup]
    · rw [after.find?_eq, get?_remove, if_pos rfl]
      rfl
    · intro other different
      rw [after.find?_eq, mirrors.find?_eq, get?_remove, if_neg (Ne.symm different)]

end ToolGateway
