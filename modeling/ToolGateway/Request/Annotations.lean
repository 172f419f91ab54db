/-!
# What a method promises

Clients are told what calling a tool may do: whether it only reads, whether it may destroy
something, whether calling it twice is the same as calling it once. HTTP methods answer all three.
Every call reaches an open world.
-/

namespace ToolGateway

structure Annotations where
  title : Option String
  readOnly : Option Bool
  destructive : Option Bool
  idempotent : Option Bool
  openWorld : Bool
deriving DecidableEq, Repr, Inhabited

/-- What a method promises; methods of other standards promise nothing. -/
def Annotations.ofMethod (method : String) (title : Option String) : Annotations :=
  match method with
  | "GET" | "HEAD" | "OPTIONS" | "TRACE" => ⟨title, some true, some false, some true, true⟩
  | "POST" => ⟨title, some false, some false, some false, true⟩
  | "PUT" | "DELETE" => ⟨title, some false, some true, some true, true⟩
  | "PATCH" => ⟨title, some false, some true, none, true⟩
  | _ => ⟨title, none, none, none, true⟩

/-- Whether a text may stand as a method. -/
def isMethod (s : String) : Bool :=
  !s.toList.isEmpty && s.toList.all fun c => c.isAlphanum || "!#$%&'*+-.^_`|~".toList.contains c

end ToolGateway
