import ToolGateway.Schema.WalkDocument

/-!
# Removing patterns

Regular expressions differ between dialects, so the `pattern` keyword can be taken out of every
schema of a description. A property that happens to be called `pattern` stays.
-/

namespace ToolGateway.Schema

/-- Removes a textual `pattern` from the node it is given. -/
def patternVisitor : Visitor Unit := fun node s =>
  match node.get? "pattern" with
  | some (.str _) => (.descend (node.swapErase "pattern"), s)
  | _ => (.descend node, s)

/-- The description without the patterns of its schemas. -/
def removePatterns (d : Document) : Document := ⟨(walkDocument patternVisitor d.root ()).1⟩

end ToolGateway.Schema
