import ToolGateway.Url.Basic

/-!
# Reading URLs

`Url.parse` reads an absolute URL, `Url.join` reads a reference against a base. Blanks around the
text and line ends inside it do not count. URLs with a scheme of the web treat a backslash as a
slash, always have a path, and have a host unless they name a file. A segment `..` removes the
segment before it, a segment `.` counts for nothing.
-/

namespace ToolGateway.Url

/-! ### Characters that are encoded -/

/-- Encodes the characters of a part, except those that are printable ASCII and not in `extra`. -/
def encodePart (extra : String) (cs : List Char) : String :=
  Percent.encode (fun b => Host.isPrintable b && !(extra.toList.any fun c => c.toNat == b.toNat))
    (String.ofList cs)

/-- What a fragment encodes besides. -/
def fragmentExtra : String := " \"<>`"

/-- What a path encodes besides. -/
def pathExtra : String := fragmentExtra ++ "#?\x7b\x7d"

/-- What a user name or password encodes besides. -/
def userExtra : String := pathExtra ++ "/:;=@[\\]^|"

/-- What a query encodes besides; a scheme of the web adds the apostrophe. -/
def queryExtra (special : Bool) : String := if special then " \"#<>'" else " \"#<>"

/-! ### Segments -/

/-- The text of a segment with its escaped dots put back. -/
def plainDots : List Char → List Char
  | '%' :: '2' :: 'e' :: rest | '%' :: '2' :: 'E' :: rest => '.' :: plainDots rest
  | c :: rest => c :: plainDots rest
  | [] => []

/-- Whether a segment stands for the place itself. -/
def isSingleDot (s : List Char) : Bool := plainDots s == ['.']

/-- Whether a segment stands for the place above. -/
def isDoubleDot (s : List Char) : Bool := plainDots s == ['.', '.']

/-- Whether a segment is a drive letter. -/
def isDrive : List Char → Bool
  | [c, d] => c.isAlpha && (d = ':' || d = '|')
  | _ => false

/-- Whether a segment is a drive letter in printed form. -/
def isPrintedDrive (s : String) : Bool :=
  match s.toList with
  | [c, ':'] => c.isAlpha
  | _ => false

/-- Removes the last segment, but not a drive letter that is the only one. -/
def shorten (file : Bool) (segments : List String) : List String :=
  match segments with
  | [s] => if file && isPrintedDrive s then [s] else []
  | segments => segments.dropLast

/-- Appends one segment to a path; the last one leaves an empty segment when it is dots. -/
def appendSegment (file : Bool) (path : List String) (segment : List Char) (last : Bool) :
    List String :=
  if isDoubleDot segment then
    let path := shorten file path
    if last then path ++ [""] else path
  else if isSingleDot segment then (if last then path ++ [""] else path)
  else if file && path.isEmpty && isDrive segment then
    path ++ [String.ofList (segment.take 1) ++ ":"]
  else path ++ [encodePart pathExtra segment]

def appendSegments (file : Bool) (path : List String) : List (List Char) → List String
  | [] => path
  | [last] => appendSegment file path last true
  | segment :: rest => appendSegments file (appendSegment file path segment false) rest

/-- Leaves out empty segments at the start of a file's path. -/
def tidyFile (path : List String) : List String :=
  match path.dropWhile String.isEmpty with
  | [] => [""]
  | path => path

/-- Whether a character separates segments. -/
def isSlash (special : Bool) (c : Char) : Bool := c = '/' || (special && c = '\\')

/-- Reads a path after its first slash, on top of the segments of a base. -/
def readPath (scheme : String) (base : List String) (cs : List Char) : Path :=
  let file := scheme == "file"
  let path := appendSegments file base (Text.pieces (isSlash (isSpecial scheme)) cs)
  .segments (if file then tidyFile path else path)

/-! ### Parts -/

/-- Splits off what follows the path: the path, the query and the fragment, as written. -/
def splitTail (cs : List Char) : List Char × Option (List Char) × Option (List Char) :=
  let (main, fragment) := match Text.splitOnce? '#' cs with
    | some (main, fragment) => (main, some fragment)
    | none => (cs, none)
  match Text.splitOnce? '?' main with
  | some (path, query) => (path, some query, fragment)
  | none => (main, none, fragment)

def withTail (u : Url) (query fragment : Option (List Char)) : Url :=
  { u with
    query := query.map (encodePart (queryExtra (isSpecial u.scheme)))
    fragment := fragment.map (encodePart fragmentExtra) }

/-- The path after an authority. -/
def pathAfterAuthority (scheme : String) (cs : List Char) : Path :=
  match cs with
  | c :: rest =>
    if isSlash (isSpecial scheme) c then readPath scheme [] rest else readPath scheme [] cs
  | [] => if isSpecial scheme then readPath scheme [] [] else .segments []

/-- Splits user name and password off an authority, at its last at-sign. -/
def splitUser (authority : List Char) : Option (List Char) × List Char :=
  let host := (authority.reverse.takeWhile (· != '@')).reverse
  if host.length = authority.length then (none, authority)
  else (some (authority.take (authority.length - host.length - 1)), host)

/-- Splits the port off a host, at the first colon outside brackets. -/
def splitPort (bracketed : Bool) : List Char → List Char × Option (List Char)
  | [] => ([], none)
  | c :: rest =>
    if c = ':' ∧ ¬ bracketed then ([], some rest)
    else
      let (host, port) := splitPort (if c = '[' then true else if c = ']' then false else bracketed)
        rest
      (c :: host, port)

/-- Reads a port; the usual one of the scheme and an empty one count as none. -/
def readPort (scheme : String) (cs : List Char) : Except Fault (Option Nat) :=
  if !cs.all isDigit then .error .badPort
  else if decimalValue 0 cs > 65535 then .error .badPort
  else if cs.isEmpty || usualPort? scheme == some (decimalValue 0 cs) then .ok none
  else .ok (some (decimalValue 0 cs))

/-- Reads the host of a URL that does not name a file. -/
def readHost (scheme : String) (cs : List Char) : Except Fault Host :=
  if isSpecial scheme then
    if cs.isEmpty then .error .emptyHost else Host.ofText? cs
  else Host.ofOpaque? cs

/-- Splits user name and password, at their first colon. -/
def splitPassword (user : List Char) : List Char × List Char :=
  (Text.splitOnce? ':' user).getD (user, [])

/-- Fails when something is wrong. -/
def refuse (wrong : Bool) (fault : Fault) : Except Fault Unit :=
  if wrong then .error fault else .ok ()

/-- Reads everything after the slashes that start an authority. -/
def readAuthority (scheme : String) (cs : List Char) : Except Fault Url := do
  let (main, query, fragment) := splitTail cs
  let ends : Char → Bool := isSlash (isSpecial scheme)
  -- Only the last at-sign ends the user; those before it belong to it.
  let (user, server) := splitUser (main.takeWhile (!ends ·))
  let rest := main.dropWhile (!ends ·)
  refuse (user == some [] && server.isEmpty &&
    !(rest.isEmpty && query.isNone && fragment.isNone)) .emptyHost
  let (name, port) := splitPort false server
  let host ← readHost scheme name
  refuse (host == .domain "" && port.isSome) .emptyHost
  let port ← port.elim (.ok none) (readPort scheme)
  let (username, password) := splitPassword (user.getD [])
  refuse (host == .domain "" && !(username.isEmpty && password.isEmpty)) .emptyHost
  let u : Url :=
    { scheme, username := encodePart userExtra username, password := encodePart userExtra password
      host := some host, port, path := pathAfterAuthority scheme rest, query := none
      fragment := none }
  return u.withTail query fragment

/-- A `file` URL with the given host and path. -/
def fileUrl (host : Host) (path : Path) : Url :=
  { scheme := "file", username := "", password := "", host := some host, port := none, path
    query := none, fragment := none }

/-- The segments of a path; an opaque path has none. -/
def Path.list : Path → List String
  | .segments list => list
  | .plain _ => []

/-- Whether a text starts with a segment that is a drive letter. -/
def startsWithDrive (cs : List Char) : Bool :=
  isDrive (cs.take 2) &&
    (match cs.drop 2 with
      | [] => true
      | c :: _ => ['/', '\\', '?', '#'].contains c)

/-- The host of a `file` URL, where `localhost` counts as none, and so does any host before a drive
letter. -/
def fileHost (host : Host) (path : Path) : Host :=
  match path with
  | .segments (s :: _) =>
    if isPrintedDrive s || host == .domain "localhost" then .domain "" else host
  | _ => if host == .domain "localhost" then .domain "" else host

/-- Reads a `file` URL after two slashes. -/
def readFileHost (cs : List Char) : Except Fault Url := do
  let (main, query, fragment) := splitTail cs
  let server := main.takeWhile (!isSlash true ·)
  let rest := main.dropWhile (!isSlash true ·)
  if isDrive server then
    return (fileUrl (.domain "") (readPath "file" [] main)).withTail query fragment
  let host ← (if server.isEmpty then .ok (.domain "") else Host.ofText? server)
  let path := pathAfterAuthority "file" rest
  return (fileUrl (fileHost host path) path).withTail query fragment

/-- Reads what follows `file:`, or a reference against a base that is a `file` URL. -/
def readFileUrl (base : Option Url) (cs : List Char) : Except Fault Url :=
  match cs with
  | c :: rest =>
    if isSlash true c then
      match rest with
      | d :: after =>
        if isSlash true d then readFileHost after else .ok (rooted rest)
      | [] => .ok (rooted rest)
    else .ok (relative base (c :: rest))
  | [] => .ok (relative base [])
where
  /-- A path from the root of the base's host. -/
  rooted (cs : List Char) : Url :=
    let (main, query, fragment) := splitTail cs
    let inherit := if startsWithDrive cs then none else base
    let host := (inherit.bind (·.host)).getD (.domain "")
    let drive := match inherit.map (·.path.list) with
      | some (s :: _) => if isPrintedDrive s then [s] else []
      | _ => []
    let host := if drive.isEmpty then host else .domain ""
    (fileUrl host (readPath "file" drive main)).withTail query fragment
  /-- A path relative to the base. -/
  relative (base : Option Url) (cs : List Char) : Url :=
    let (main, query, fragment) := splitTail cs
    match base with
    | none => (fileUrl (.domain "") (readPath "file" [] main)).withTail query fragment
    | some b =>
      if main.isEmpty then
        let u := b.withTail (if query.isSome then query else none) fragment
        if query.isSome then u else { u with query := b.query }
      else if startsWithDrive cs then
        (fileUrl (.domain "") (readPath "file" [] main)).withTail query fragment
      else
        { b with path := readPath "file" (shorten true b.path.list) main }.withTail query fragment

/-- Reads a reference against a base that is not a `file` URL. -/
def readRelative (base : Url) (cs : List Char) : Except Fault Url :=
  match cs with
  | c :: rest =>
    if isSlash true c then
      match rest with
      | d :: after =>
        if isSlash true d then
          if c = '/' ∧ d = '/' then readAuthority base.scheme after
          else readAuthority base.scheme (after.dropWhile (isSlash true))
        else .ok (under [] rest)
      | [] => .ok (under [] rest)
    else .ok (relative (c :: rest))
  | [] => .ok (relative [])
where
  /-- A path on top of segments of the base. -/
  under (segments : List String) (cs : List Char) : Url :=
    let (main, query, fragment) := splitTail cs
    { base with path := readPath base.scheme segments main }.withTail query fragment
  /-- A path relative to the base, or a query or fragment alone. -/
  relative (cs : List Char) : Url :=
    let (main, query, fragment) := splitTail cs
    if main.isEmpty then
      let u := base.withTail query fragment
      if query.isSome then u else { u with query := base.query }
    else under base.path.list.dropLast cs

/-! ### Whole URLs -/

/-- The characters of a scheme. -/
def isSchemeChar (c : Char) : Bool := c.isAlphanum || c = '+' || c = '-' || c = '.'

/-- Splits off the scheme, in lowercase. -/
def splitScheme? (cs : List Char) : Option (String × List Char) :=
  match cs.span isSchemeChar with
  | (c :: name, ':' :: rest) =>
    if c.isAlpha then some (String.ofList ((c :: name).map Text.lowerChar), rest) else none
  | _ => none

/-- Reads what follows the scheme. -/
def readWithScheme (base : Option Url) (scheme : String) (cs : List Char) : Except Fault Url :=
  if scheme == "file" then readFileUrl (base.filter (·.scheme == "file")) cs
  else if isSpecial scheme then
    let slashes := cs.takeWhile (isSlash true)
    match base with
    | some b =>
      if slashes.length < 2 && b.scheme == scheme then readRelative b cs
      else readAuthority scheme (cs.dropWhile (isSlash true))
    | none => readAuthority scheme (cs.dropWhile (isSlash true))
  else
    match cs with
    | '/' :: '/' :: rest => readAuthority scheme rest
    | cs =>
      let (main, query, fragment) := splitTail cs
      let path := match main with
        | '/' :: rest => readPath scheme [] rest
        | main => .plain (encodePart "" main)
      let u : Url :=
        { scheme, username := "", password := "", host := none, port := none, path, query := none
          fragment := none }
      .ok (u.withTail query fragment)

/-- The text that counts: without control characters and blanks around it, and without tabs and line
ends. -/
def cleaned (s : String) : List Char :=
  (Text.stripChars (·.toNat ≤ 32) s.toList).filter fun c => c ≠ '\t' ∧ c ≠ '\n' ∧ c ≠ '\r'

/-- Reads a reference, against a base if there is one. -/
def read (base : Option Url) (s : String) : Except Fault Url :=
  let cs := cleaned s
  match splitScheme? cs with
  | some (scheme, rest) => readWithScheme base scheme rest
  | none =>
    match base with
    | none => .error .noBase
    | some b =>
      match cs, b.path with
      | '#' :: fragment, _ => .ok { b with fragment := some (encodePart fragmentExtra fragment) }
      | _, .plain _ => .error .opaqueBase
      | _, _ => if b.scheme == "file" then readFileUrl base cs else readRelative b cs

def parse (s : String) : Except Fault Url := read none s

def join (base : Url) (s : String) : Except Fault Url := read (some base) s

end ToolGateway.Url
