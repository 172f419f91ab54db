import ToolGateway.Json.Printer
import ToolGateway.Proofs.Reading
import ToolGateway.Proofs.Reference.Copying
import ToolGateway.Proofs.Schema.Filtering
import ToolGateway.Registry

/-!
# What references bring into schemas

The filters run before references are resolved, and a walk neither visits nor enters a reference. So
they leave what stands beside a reference and what only references lead to as it is, and resolving
puts it where the walk over the published description comes. That is the only way in: a node of the
published description that has a discriminator or a textual pattern was copied from one that has it
already, that references supply, and that the filters did not visit
(`Registry.supplied_of_finish`).
-/

namespace ToolGateway

open Schema

variable {files : Files} {l : Library}

/-! ### Walks that follow references -/

namespace Registry

variable {w : World} {check : DigestCheck} {location : String} {root : Source}
  {switches : Dict Bool} {raw published : Document}

namespace Sample

/-- A world that holds a description and nothing else. -/
def world (v : Json) : World := ⟨⟨[], [], [(["spec"], Utf8.encode v.render)]⟩, []⟩

/-- A description whose only path item is a reference. Where it leads, a parameter has a schema with
a pattern and a discriminator. -/
def shared : Json :=
  .object [("openapi", .str "3.0.0"), ("info", .object [("version", .str "1")]),
    ("paths", .object [("/a", .object [("$ref", .str "#/x-item")])]),
    ("x-item", .object [("parameters", .arr [.object [("schema", .object [
      ("pattern", .str "^a"), ("discriminator", .object [("propertyName", .str "kind")])])]])])]

end Sample

end Registry

end ToolGateway
