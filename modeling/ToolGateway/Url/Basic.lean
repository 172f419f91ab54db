import ToolGateway.Url.Host

/-!
# URLs

A URL in parts, and its printed form. The path is a list of segments, each printed after a slash, or
one opaque text for URLs such as `mailto:`. All parts are kept in encoded form.
-/

namespace ToolGateway

inductive Url.Path where
  | plain (text : String)
  | segments (list : List String)
deriving DecidableEq, Repr, Inhabited

/-- A URL. A URL without authority has no host; the port is given when it is not the usual one. -/
structure Url where
  scheme : String
  username : String
  password : String
  host : Option Url.Host
  port : Option Nat
  path : Url.Path
  query : Option String
  fragment : Option String
deriving DecidableEq, Repr, Inhabited

namespace Url

/-- The usual port of a scheme with a meaning for the web. -/
def usualPort? : String → Option Nat
  | "http" | "ws" => some 80
  | "https" | "wss" => some 443
  | "ftp" => some 21
  | _ => none

/-- Whether a scheme has a meaning for the web. -/
def isSpecial (scheme : String) : Bool := scheme == "file" || (usualPort? scheme).isSome

def Path.render : Path → String
  | .plain text => text
  | .segments list => String.join (list.map ("/" ++ ·))

/-- User name and password, with the sign that ends them. -/
def renderUser (u : Url) : String :=
  if u.username.isEmpty && u.password.isEmpty then ""
  else u.username ++ (if u.password.isEmpty then "" else ":" ++ u.password) ++ "@"

/-- The authority with the slashes before it. A path that starts with two slashes is kept apart from
an authority that is not there. -/
def renderAuthority (u : Url) : String :=
  match u.host with
  | some host =>
    "//" ++ u.renderUser ++ host.render ++
      (match u.port with
        | some p => ":" ++ decimal p
        | none => "")
  | none =>
    match u.path with
    | .segments ("" :: _ :: _) => "/."
    | _ => ""

/-- The printed form without the fragment. -/
def renderWithoutFragment (u : Url) : String :=
  u.scheme ++ ":" ++ u.renderAuthority ++ u.path.render ++
    (match u.query with
      | some q => "?" ++ q
      | none => "")

def render (u : Url) : String :=
  u.renderWithoutFragment ++
    (match u.fragment with
      | some f => "#" ++ f
      | none => "")

def withoutFragment (u : Url) : Url := { u with fragment := none }

/-- A path that ends the URL: a plain text has no blanks at its end then. -/
def Path.ending : Path → Path
  | .plain text => .plain (Text.trimEnd ' ' text)
  | p => p

/-- The URL without anything that may be secret: user, password, query and fragment. -/
def redacted (u : Url) : Url :=
  { u with username := "", password := "", path := u.path.ending, query := none, fragment := none }

/-- The printed form that is safe to show. -/
def redact (u : Url) : String := u.redacted.render

/-- The path of the file that a `file` URL names, none when it names a file of another host or has
an opaque path. -/
def filePath? (u : Url) : Option String :=
  match u.host, u.path with
  | none, .segments list | some (.domain ""), .segments list
  | some (.domain "localhost"), .segments list =>
    if list.isEmpty then none else
    let path := String.join (list.map fun s => "/" ++ Percent.decode s)
    match path.toList.reverse with
    | c :: d :: _ :: _ =>
      if (c = ':' ∨ c = '|') ∧ d.isAlpha then some (path ++ "/") else some path
    | _ => some path
  | _, _ => none

end Url

end ToolGateway
