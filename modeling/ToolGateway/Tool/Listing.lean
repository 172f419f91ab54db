import ToolGateway.Tool.Basic

/-!
# Tools as they are listed

What clients read about a tool, as JSON.
-/

namespace ToolGateway

/-- A member that is there only with a value. -/
def Json.optionalMember (key : String) (v : Option Json) : List (String × Json) :=
  (v.map (key, ·)).toList

def Annotations.json (a : Annotations) : Json :=
  .object (Json.optionalMember "title" (a.title.map .str) ++
    Json.optionalMember "readOnlyHint" (a.readOnly.map .bool) ++
    Json.optionalMember "destructiveHint" (a.destructive.map .bool) ++
    Json.optionalMember "idempotentHint" (a.idempotent.map .bool) ++
    [("openWorldHint", .bool a.openWorld)])

def Tool.listing (t : Tool) : Json :=
  let d := t.definition
  .object ([("name", .str d.name), ("title", .str d.title)] ++
    Json.optionalMember "description" (d.description.map .str) ++
    [("inputSchema", .obj d.schema), ("annotations", t.annotations.json)])

end ToolGateway
