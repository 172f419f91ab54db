import ToolGateway.Registry
import ToolGateway.Tool.Basic

/-!
# Tools of the current description

A toolset compiles the description of a registry and keeps the catalog that came of it last. When
some operation cannot become a tool, the catalog stays as it was.
-/

namespace ToolGateway

/-- A registry with the catalog that was compiled last. -/
structure Toolset where
  registry : Registry
  compiler : Compiler
  catalog : Catalog
deriving Inhabited

namespace Toolset

def ofRegistry (registry : Registry) (compiler : Compiler) : Toolset := ⟨registry, compiler, []⟩

/-- Compiles the current description. -/
def compile (t : Toolset) : Except Error Catalog × Toolset :=
  match t.compiler.catalog t.registry.document with
  | .ok catalog => (.ok catalog, { t with catalog })
  | .error e => (.error e, t)

/-- The version of the description that the catalog was compiled from, which its first tool knows.
-/
def compiledVersion (t : Toolset) : Option String :=
  t.catalog.head?.bind (·.operation.document.version)

/-- The version that clients know: that of the catalog, else that of the current description. -/
def knownVersion (t : Toolset) : Option String := t.compiledVersion.or t.registry.version

end Toolset

end ToolGateway
