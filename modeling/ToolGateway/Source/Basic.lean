import ToolGateway.Url.Parser
import ToolGateway.World.Basic

/-!
# Sources

A document comes from a file or from the web. A location names a source; so does a reference that
starts from a document, and then a relative one is read against the source of that document. A file
that exists has one source, whichever way its path is written.
-/

namespace ToolGateway

/-- Where a document comes from. The URL of a page has no fragment. -/
inductive Source where
  | page (url : Url)
  | file (path : String)
deriving DecidableEq, Repr, Inhabited

namespace Source

/-! ### Paths -/

/-- Whether a path starts at the root. -/
def isAbsolute (path : String) : Bool := Text.startsWith path "/"

/-- The names of a path that count: neither empty ones nor a dot after the first place. -/
def significant (path : String) : List String :=
  match Files.names path with
  | first :: rest =>
    (if first.isEmpty then [] else [first]) ++ rest.filter fun n => !n.isEmpty && n != "."
  | [] => []

/-- The form of a path that tells it from others: paths that differ in superfluous slashes and dots
only are equal. -/
def plainPath (path : String) : String :=
  (if isAbsolute path then "/" else "") ++ "/".intercalate (significant path)

/-- Removes superfluous slashes and dots from the end of what remains of a path, in reverse. -/
def trimPath : List Char → List Char
  | ['/'] => ['/']
  | '/' :: rest => trimPath rest
  | '.' :: '/' :: rest => trimPath ('/' :: rest)
  | cs => cs

/-- The path of the folder that holds what a path leads to, none for the root and the empty path. -/
def parent? (path : String) : Option String :=
  let cs := trimPath path.toList.reverse
  if cs.isEmpty || cs == ['/'] then none
  else some (String.ofList (trimPath (cs.dropWhile (· != '/'))).reverse)

/-- The path that a path leads to from a folder. -/
def joinPath (folder path : String) : String :=
  if isAbsolute path || folder.isEmpty then path
  else if Text.endsWith folder "/" then folder ++ path
  else folder ++ "/" ++ path

/-! ### Locations -/

def ofPath (files : Files) (path : String) : Source := .file (files.canonical path)

def isWeb (location : String) : Bool :=
  Text.startsWith location "http://" || Text.startsWith location "https://"

def isFileUrl (location : String) : Bool := Text.startsWith location "file://"

/-- The source that a location names. -/
def parse (files : Files) (location : String) : Except Error Source :=
  if isWeb location then
    match Url.parse location with
    | .ok u => .ok (.page u.withoutFragment)
    | .error e => .error (.invalid location ("invalid URL: " ++ e.message))
  else if isFileUrl location then
    match Url.parse location with
    | .ok u =>
      match u.filePath? with
      | some path => .ok (ofPath files path)
      | none => .error (.invalid location "file URL cannot be converted to a path")
    | .error e => .error (.invalid location ("invalid file URL: " ++ e.message))
  else .ok (ofPath files location)

/-- The text that shows a source; it holds nothing secret. -/
def display : Source → String
  | page u => u.redact
  | file path => path

/-- The path of a file. -/
def path? : Source → Option String
  | page _ => none
  | file path => some path

/-- How many names the path of a file has. -/
def depth : Source → Nat
  | page _ => 0
  | file path => (significant path).length

/-- The text that tells a source from others among the keys of references. -/
def key : Source → String
  | page u => "url:" ++ u.render
  | file path => "file:" ++ path

/-- Whether two sources are one: the same page, or paths that differ in superfluous signs only. -/
def same : Source → Source → Bool
  | page u, page v => u.render == v.render
  | file p, file q => plainPath p == plainPath q
  | _, _ => false

/-- A failure that is put down to a document. -/
def fault (s : Source) (message : String) : Error := .invalid s.display message

/-- The source that the document part of a reference names, for a reference in a document from
`base`. -/
def relative (files : Files) (base : Source) (part : String) : Except Error Source :=
  if part.isEmpty then .ok base
  else if isWeb part then
    match Url.parse part with
    | .ok u => .ok (.page u.withoutFragment)
    | .error e => .error (base.fault s!"Bad $ref URL '{part}': {e.message}")
  else if isFileUrl part then
    match Url.parse part with
    | .ok u =>
      match u.filePath? with
      | some path => .ok (ofPath files path)
      | none => .error (base.fault s!"Bad $ref file URL (not a path): {part}")
    | .error e => .error (base.fault s!"Bad $ref file URL '{part}': {e.message}")
  else
    match base with
    | .page u =>
      match Url.join u part with
      | .ok joined => .ok (.page joined.withoutFragment)
      | .error e =>
        .error (base.fault
          s!"Failed to resolve relative $ref '{part}' against base {u.render}: {e.message}")
    | .file path => .ok (ofPath files (joinPath ((parent? path).getD ".") part))

/-! ### Texts -/

/-- The text of the document from a source. -/
def text (w : World) : Source → Except Error String
  | page u => (w.fetch u).mapError (.fetch u.redact)
  | file path => (w.files.read path).mapError (.unreadable path)

end Source

end ToolGateway
