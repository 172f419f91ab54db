import ToolGateway.Digest
import ToolGateway.Document
import ToolGateway.Json.Reader
import ToolGateway.Source.Basic
import ToolGateway.Yaml.Value

/-!
# Reading descriptions

A description is written in JSON or in YAML. It can be checked against a known digest; and it is
refused when its structure makes it useless.
-/

namespace ToolGateway

/-- What happens when a text does not have the digest that is expected. -/
inductive DigestPolicy where
  | warn
  | fail
  | ignore
deriving DecidableEq, Repr, Inhabited

/-- A digest to check, and what happens when it differs. -/
structure DigestCheck where
  expected : Option String
  policy : DigestPolicy
deriving DecidableEq, Repr, Inhabited

namespace DigestCheck

def none : DigestCheck := ⟨.none, .ignore⟩

/-- Checks the text of a document from a location. -/
def run (c : DigestCheck) (location text : String) : Except Error Unit :=
  match c.expected, c.policy with
  | some expected, .fail =>
    let actual := Digest.name text
    if actual = expected then .ok ()
    else .error (.invalid location s!"Spec hash mismatch. Expected: {expected}, Got: {actual}")
  | _, _ => .ok ()

end DigestCheck

namespace Document

/-- Reads a tree from a text: as JSON, and as YAML when that fails. -/
def tree? (text : String) : Option Json := (Json.parse? text).or (Yaml.parseJson? text)

/-- Reads a description from the text of a location. -/
def parse (location text : String) : Except Error Document :=
  match tree? text with
  | none => .error (.invalid location "Failed to parse document")
  | some root =>
    match (diagnose root).fatal with
    | [] => .ok ⟨root⟩
    | faults => .error (.invalidDocument location faults)

/-- Fetches and reads the description at a location. -/
def read (w : World) (check : DigestCheck) (location : String) : Except Error Document := do
  let source ← Source.parse w.files location
  let text ← source.text w
  check.run location text
  parse location text

end Document

end ToolGateway
