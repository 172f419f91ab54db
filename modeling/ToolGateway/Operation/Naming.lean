import ToolGateway.Error
import ToolGateway.Operation.Basic
import ToolGateway.Text.Unicode.Alphanumeric
import ToolGateway.Text.Unicode.Lowercase

/-!
# Names of tools

A tool is named after its operation: by the operation's identifier as it is, by the identifier in
lowercase with everything between letters and digits collapsed to one underscore, or by method and
path. A name can be cut to a greatest length.
-/

namespace ToolGateway

/-- What a name is made from. -/
inductive NameSource where
  | operationId
  | sanitizedId
  | endpoint
deriving DecidableEq, Repr, Inhabited

structure Naming where
  source : NameSource
  maxLength : Option Nat
deriving DecidableEq, Repr, Inhabited

/-- Why an operation has no name. -/
inductive NamingFault where
  | noId
  | blankId
  | nothingLeft (id : String)
deriving DecidableEq, Repr, Inhabited

def NamingFault.message : NamingFault → String
  | .noId => "Operation ID is null - cannot determine how to proceed with naming."
  | .blankId =>
    "Operation ID is empty or contains only whitespace - cannot determine how to proceed " ++
      "with naming."
  | .nothingLeft id =>
    s!"Operation ID '{id}' contains no valid alphanumeric characters - " ++
      "cannot generate a valid name."

namespace Naming

/-- Appends a character to a sanitized name that is built in reverse: letters and digits in
lowercase, anything else as one underscore that neither starts the name nor follows another. -/
def sanitizeStep (out : List Char) (c : Char) : List Char :=
  if Unicode.isAlphanumeric c then (Unicode.lowercase c).reverse ++ out
  else
    match out with
    | [] => []
    | '_' :: _ => out
    | _ => '_' :: out

def sanitizeChars (cs : List Char) : List Char :=
  match cs.foldl sanitizeStep [] with
  | '_' :: out => out.reverse
  | out => out.reverse

def sanitize (s : String) : String := String.ofList (sanitizeChars s.toList)

/-- What a character of a path adds to a name; a slash at the start adds nothing. -/
def endpointPiece (c : Char) : List Char :=
  if c = '/' ∨ c = '-' then ['_']
  else if Unicode.isAlphanumeric c ∨ c = '_' then Unicode.lowercase c
  else []

/-- The name for a method and a path. -/
def endpoint (method path : String) : String :=
  let rest := match path.toList with
    | '/' :: rest => rest
    | cs => cs
  String.ofList ((Text.lowerAscii method).toList ++ '_' :: rest.flatMap endpointPiece)

/-- The name before it is cut. -/
def fullName (source : NameSource) (op : Operation) : Except NamingFault String :=
  match source, op.id? with
  | .endpoint, _ => .ok (endpoint op.method op.path)
  | _, none => .error .noId
  | .operationId, some id => if Text.isBlank id then .error .blankId else .ok id
  | .sanitizedId, some id =>
    let name := sanitize id
    if name.isEmpty then .error (.nothingLeft id) else .ok name

def name (n : Naming) (op : Operation) : Except NamingFault String :=
  match fullName n.source op with
  | .error e => .error e
  | .ok name =>
    match n.maxLength with
    | none => .ok name
    | some k => .ok (String.ofList (name.toList.take k))

/-- Refuses a way of naming that would leave nothing of a name. -/
def check (n : Naming) : Except Error Naming :=
  if n.maxLength = some 0 then .error (.config "Max length must be greater than 0") else .ok n

end Naming

end ToolGateway
