import ToolGateway.Proofs.Tool.Schemas

/-!
# Compiling is all or nothing

A description becomes a catalog as a whole or not at all. Every operation that can be named has a
tool, since what is composed for it is always an object (`Envelope.exists_members_of_compose`), so
naming is the only step that fails (`Compiler.tool_eq_error_iff`). Hence the catalog has one tool for
each operation, or the first operation without a name is reported and the catalog stays as it was
(`Toolset.compile_all_or_none`).
-/

namespace ToolGateway

/-- Whatever is composed for an operation is an object. -/
theorem Envelope.exists_members_of_compose {e : Envelope} {op : Operation} {schema : Json}
    (h : e.compose op = some schema) : ∃ members, schema = .obj members := by
  obtain ⟨properties, found⟩ := (ofObject_compose h).properties
  obtain ⟨members, object, -⟩ := Json.get?_eq_some_iff.mp found
  exact ⟨members, object⟩

/-- An operation has no tool exactly when it has no name. -/
theorem Compiler.tool_eq_error_iff {c : Compiler} {op : Operation} {f : Error} :
    c.tool op = .error f ↔ ∃ e, c.naming.name op = .error e ∧ f = failure op e.message := by
  unfold tool
  cases named : c.naming.name op with
  | error e => simp [eq_comm]
  | ok name =>
    simp only [reduceCtorEq, false_and, exists_false, iff_false]
    split
    · exact nofun
    · exact nofun
    · next schema plain composed =>
      obtain ⟨members, rfl⟩ := Envelope.exists_members_of_compose composed
      exact absurd rfl (plain members)

namespace Toolset

/-- Compiling a description gives one tool for each operation, in order, which carries the operation
and the name that the naming gives to it, and keeps exactly this catalog; or it reports, with its
method and its path, the first operation that cannot be named, and changes nothing. It never comes to
a schema that is no object. -/
theorem compile_all_or_none (t : Toolset) :
    ((∃ catalog, t.compile = (.ok catalog, { t with catalog }) ∧
        List.Forall₂ (fun op tool => tool.operation = op ∧ t.compiler.naming.name op = .ok tool.name)
          (Operation.all t.registry.document) catalog) ∨
      ∃ before op after e, Operation.all t.registry.document = before ++ op :: after ∧
        (∀ o ∈ before, ∃ name, t.compiler.naming.name o = .ok name) ∧
        t.compiler.naming.name op = .error e ∧
        t.compile = (.error (.registration op.method op.path e.message), t)) ∧
    ∀ op schema, t.compiler.envelope.compose op = some schema →
      ∃ members, schema = .obj members := by
  refine ⟨?_, fun _ _ => Envelope.exists_members_of_compose⟩
  unfold compile
  cases compiled : t.compiler.catalog t.registry.document with
  | ok catalog =>
    have tools := Except.forall₂_of_mapM compiled
    exact Or.inl ⟨catalog, rfl, tools.imp fun _ _ made => Compiler.tool_spec made⟩
  | error f =>
    obtain ⟨before, op, after, split, made, failed⟩ := Except.exists_first_of_mapM compiled
    obtain ⟨e, unnamed, rfl⟩ := Compiler.tool_eq_error_iff.mp failed
    refine Or.inr ⟨before, op, after, e, split, fun o ho => ?_, unnamed, rfl⟩
    obtain ⟨tool, htool⟩ := made o ho
    exact ⟨tool.name, (Compiler.tool_spec htool).2⟩

end Toolset

end ToolGateway
