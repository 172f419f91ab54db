import ToolGateway.Proofs.Except
import ToolGateway.Proofs.Json.Reading
import ToolGateway.Source.Reading

/-!
# Descriptions that are read

A tree that is read from a text repeats no key, in whatever form it is written
(`Document.distinct_of_tree?`), and a tree that is accepted as a description has a version
(`Document.read_spec`). In a YAML text each mapping becomes an object that is built from its
entries.
-/

namespace ToolGateway

/-! ### YAML texts -/

namespace Yaml

/-- Every result of a reader has a property. -/
def Gives {α : Type} (m : Resolver α) (p : α → Prop) : Prop := ∀ s a s', m s = some (a, s') → p a

namespace Gives

variable {α β : Type} {m : Resolver α} {p : α → Prop}

theorem bind {f : α → Resolver β} {q : β → Prop} (first : Gives m p)
    (next : ∀ a, p a → Gives (f a) q) : Gives (m >>= f) q := by
  intro s b s' h
  obtain ⟨⟨a, s₁⟩, ha, h⟩ := Option.bind_eq_some_iff.mp h
  exact next a (first s a s₁ ha) s₁ b s' h

theorem any (m : Resolver α) : Gives m fun _ => True := fun _ _ _ _ => trivial

theorem pure {a : α} (h : p a) : Gives (pure a) p := by
  intro s b s' hb
  cases hb
  exact h

theorem failure : Gives (failure : Resolver α) p := by
  intro s b s' hb
  cases hb

theorem lift {x : Option α} (h : ∀ a, x = some a → p a) : Gives (liftM x) p := by
  intro s b s' hb
  obtain ⟨a, ha, hb⟩ := Option.bind_eq_some_iff.mp hb
  cases hb
  exact h _ ha

theorem mapM {f : β → Resolver α} {xs : List β} (h : ∀ x ∈ xs, Gives (f x) p) :
    Gives (xs.mapM f) fun ys => ∀ y ∈ ys, p y := by
  induction xs with
  | nil => exact .pure fun _ hy => nomatch hy
  | cons x xs ih =>
    obtain ⟨first, others⟩ := List.forall_mem_cons.mp h
    rw [List.mapM_cons]
    refine first.bind fun y hy => (ih others).bind fun ys hys => ?_
    exact .pure (List.forall_mem_cons.mpr ⟨hy, hys⟩)

end Gives

theorem distinct_of_toJson? {y : Yaml} {v : Json} (h : y.toJson? = some v) : v.Distinct := by
  cases y with
  | str s =>
    cases h
    exact Json.distinct_str s
  | _ => cases h <;> exact Json.distinct_of_isScalar trivial

theorem gives_scalar (tag : Option String) (text : String) (plain : Bool) :
    Gives (liftM ((ofScalar tag text plain).bind toJson?)) Json.Distinct := by
  refine .lift fun v hv => ?_
  obtain ⟨y, -, hv⟩ := Option.bind_eq_some_iff.mp hv
  exact distinct_of_toJson? hv

/-- How a node is read: its own kind decides, and what it holds is read one level deeper. -/
theorem jsonOfNode_eq (d : Parsed) (limit depth : Nat) (n : Yaml.Node) :
    jsonOfNode d limit depth n = target d limit n >>= fun n =>
      match n, depth with
      | .scalar tag text plain, _ => (ofScalar tag text plain).bind toJson?
      | .list tag items, depth + 1 =>
        if (localTag? tag).isSome then failure
        else items.mapM (jsonOfNode d limit depth) >>= fun items => pure (.arr items)
      | .map tag entries, depth + 1 =>
        if (localTag? tag).isSome then failure
        else (entries.mapM fun e => target d limit e.1 >>= fun n =>
          match n with
          | .scalar _ key _ => jsonOfNode d limit depth e.2 >>= fun v => pure (key, v)
          | _ => failure) >>= fun members => pure (.obj (Dict.ofList members))
      | _, _ => failure := by
  -- The definition recurses on the depth below a bind, so there is no equation to rewrite with.
  cases depth <;>
  · delta jsonOfNode
    refine bind_congr (m := Resolver) (x := target d limit n) fun n => ?_
    cases n <;> rfl

/-- A node is read as a value that repeats no key. -/
theorem gives_jsonOfNode (d : Parsed) (limit depth : Nat) (n : Yaml.Node) :
    Gives (jsonOfNode d limit depth n) Json.Distinct := by
  induction depth generalizing n with
  | zero =>
    rw [jsonOfNode_eq]
    refine (Gives.any _).bind fun n _ => ?_
    cases n with
    | scalar tag text plain => exact gives_scalar tag text plain
    | _ => exact .failure
  | succ depth ih =>
    rw [jsonOfNode_eq]
    refine (Gives.any _).bind fun n _ => ?_
    cases n with
    | scalar tag text plain => exact gives_scalar tag text plain
    | list tag items =>
      dsimp only
      split
      · exact .failure
      · refine (Gives.mapM fun item _ => ih item).bind fun items hitems => ?_
        exact .pure (Json.distinct_arr_iff.mpr hitems)
    | map tag entries =>
      dsimp only
      split
      · exact .failure
      · have entry : ∀ e ∈ entries, Gives (target d limit e.1 >>= fun n =>
            match n with
            | .scalar _ key _ => jsonOfNode d limit depth e.2 >>= fun v => pure (key, v)
            | _ => failure) fun m : String × Json => m.2.Distinct := by
          intro e _
          refine (Gives.any _).bind fun n _ => ?_
          cases n with
          | scalar tag key plain => exact (ih e.2).bind fun v hv => .pure hv
          | _ => exact .failure
        refine (Gives.mapM entry).bind fun members hmembers => ?_
        exact .pure (Json.distinct_ofList hmembers)
    | _ => exact .failure

theorem distinct_of_parseJson? {text : String} {v : Json} (h : parseJson? text = some v) :
    v.Distinct := by
  obtain ⟨ts, -, h⟩ := Option.bind_eq_some_iff.mp h
  obtain ⟨d, -, h⟩ := Option.bind_eq_some_iff.mp h
  cases hn : d.root with
  | none =>
    rw [hn] at h
    cases h
    exact Json.distinct_of_isScalar trivial
  | some n =>
    rw [hn] at h
    obtain ⟨⟨r, s⟩, hr, h⟩ := Option.bind_eq_some_iff.mp h
    cases h
    exact gives_jsonOfNode d _ _ n _ _ _ hr

end Yaml

/-! ### Documents -/

namespace Document

theorem distinct_of_tree? {text : String} {v : Json} (h : tree? text = some v) : v.Distinct := by
  rcases Option.or_eq_some_iff.mp h with h | ⟨-, h⟩
  · exact Json.distinct_of_parse? h
  · exact Yaml.distinct_of_parseJson? h

theorem infoFaults_of_diagnose {root : Json.Members} (h : (diagnose (.obj root)).fatal = []) :
    infoFaults root = [] := by
  unfold diagnose at h
  dsimp only at h
  split at h
  · exact (List.append_eq_nil_iff.mp h).2
  · exact (List.append_eq_nil_iff.mp h).2
  · cases (List.append_eq_nil_iff.mp h).2

/-- A tree without fatal faults has a version. -/
theorem exists_version {root : Json} (h : (diagnose root).fatal = []) :
    ∃ v, version ⟨root⟩ = some v := by
  cases root with
  | obj root =>
    have faults := infoFaults_of_diagnose h
    unfold infoFaults at faults
    split at faults
    · next info hinfo =>
      split at faults
      · next v hv => exact ⟨v, by simp [version, within, Json.get?, hinfo, hv, Json.str?]⟩
      · cases faults
      · cases faults
    · cases faults
    · cases faults
  | _ => cases h

/-- A text that is read as a description repeats no key and gives a version. -/
theorem parse_spec {location text : String} {d : Document} (h : parse location text = .ok d) :
    d.root.Distinct ∧ ∃ v, d.version = some v := by
  unfold parse at h
  split at h
  · cases h
  · next root hroot =>
    split at h
    · next faults =>
      cases h
      exact ⟨distinct_of_tree? hroot, exists_version faults⟩
    · cases h

/-- A description that is read repeats no key and has a version. -/
theorem read_spec {w : World} {check : DigestCheck} {location : String} {d : Document}
    (h : read w check location = .ok d) : d.root.Distinct ∧ ∃ v, d.version = some v := by
  obtain ⟨source, -, h⟩ := Except.ok_of_bind h
  obtain ⟨text, -, h⟩ := Except.ok_of_bind h
  obtain ⟨_, -, h⟩ := Except.ok_of_bind h
  exact parse_spec h

end Document

end ToolGateway
