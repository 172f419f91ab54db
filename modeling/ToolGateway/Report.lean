import ToolGateway.Text.Basic

/-!
# Reports of failures

A report says in its first line what was being done, and then what caused the failure: one cause by
itself, or several with numbers.
-/

namespace ToolGateway.Report

/-- A text under a heading, with all lines but the first behind a margin. -/
def indented (heading margin text : String) : String :=
  heading ++ ("\n" ++ margin).intercalate (Text.splitOn '\n' text)

/-- One of several causes, with its number. -/
def numbered (cause : String × Nat) : String :=
  let number := toString cause.2
  let room := String.ofList (List.replicate (5 - number.length) ' ')
  indented (room ++ number ++ ": ") "       " cause.1

/-- The causes, each from a new line on. -/
def causes : List String → String
  | [] => ""
  | [cause] => "\n\nCaused by:\n" ++ indented "    " "    " cause
  | several => "\n\nCaused by:\n" ++ "\n".intercalate (several.zipIdx.map numbered)

def render (context : String) (list : List String) : String :=
  "Error: " ++ context ++ causes list ++ "\n"

end ToolGateway.Report
