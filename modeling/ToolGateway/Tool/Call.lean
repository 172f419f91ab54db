import ToolGateway.Error
import ToolGateway.Operation.Basic

/-!
# Tool calls

A call names a tool and may have arguments. It passes through a chain of links: each gets the call
and the rest of the chain, and may pass the call on, once or more or not at all, change it, and
change what comes back. The tool itself is the last link.
-/

namespace ToolGateway

/-- What is known about a call besides its name and arguments. -/
structure Context where
  session : Option String
  client : Option String
  authorization : Option String
  tool : String
  operation : Option Operation
deriving Repr, Inhabited

structure ToolCall where
  name : String
  arguments : Option Json.Members
deriving Repr, Inhabited

/-- What a call yields: texts, and whether they tell of an error. -/
structure ToolResult where
  isError : Bool
  texts : List String
deriving DecidableEq, Repr, Inhabited

namespace ToolResult

def success (text : String) : ToolResult := ⟨false, [text]⟩

def failure (text : String) : ToolResult := ⟨true, [text]⟩

end ToolResult

abbrev Answer := Except Error ToolResult

/-- A link of a chain, which may depend on state and change it. Links of a lower order come first.
-/
structure Link (σ : Type) where
  order : Int
  answer : Context → ToolCall → (ToolCall → StateM σ Answer) → StateM σ Answer

namespace Link

/-- The order of the tool itself. -/
def terminalOrder : Int := 2147483647

/-- Links in ascending order; links of one order stay in theirs. -/
def sorted (links : List (Link σ)) : List (Link σ) :=
  links.mergeSort fun a b => decide (a.order ≤ b.order)

/-- The chain of a tool: the links in their order, and the tool after them. -/
def chain (terminal : Link σ) (links : List (Link σ)) : List (Link σ) := sorted links ++ [terminal]

/-- Sends a call through a chain. A chain that ends without an answer is exhausted. -/
def run (chain : List (Link σ)) (ctx : Context) (call : ToolCall) : StateM σ Answer :=
  match chain with
  | [] => return .error (.chainExhausted call.name)
  | link :: rest => link.answer ctx call fun call => run rest ctx call

end Link

end ToolGateway
