import ToolGateway.Json.Printer
import ToolGateway.Text.Basic
import ToolGateway.Text.Percent

/-!
# Outbound requests

A request is a method, a path template and parameter values grouped by location. In a path and in a
header a list is written with commas; in a query and in cookies it becomes repeated pairs. Nulls are
left out everywhere.
-/

namespace ToolGateway

/-- A JSON body and the media type it is sent with. -/
structure Payload where
  contentType : String
  content : Json
deriving Repr, Inhabited

structure Request where
  method : String
  path : String
  pathValues : Json.Members
  query : Json.Members
  headers : Json.Members
  cookies : Json.Members
  payload : Option Payload
deriving Repr, Inhabited

namespace Request

/-! ### Values as text -/

/-- The text of a value: a string as it is, null as nothing, anything else as JSON. -/
def valueText : Json → String
  | .str s => s
  | .null => ""
  | v => v.render

/-- The values of a list that are not null; any other value that is not null stands for itself. -/
def present : Json → List Json
  | .null => []
  | .arr items => items.filter (!·.isNull)
  | v => [v]

/-- A list with commas, any other value by itself. -/
def commaText (v : Json) : String := ",".intercalate ((present v).map valueText)

/-! ### Encoding -/

/-- The bytes that a URL may hold anywhere without a meaning of their own. -/
def isUnreserved (b : UInt8) : Bool :=
  let n := b.toNat
  (65 ≤ n && n ≤ 90) || (97 ≤ n && n ≤ 122) || (48 ≤ n && n ≤ 57) || n = 45 || n = 46 || n = 95 ||
    n = 126

/-- The bytes that a path segment keeps: the unreserved ones and `! $ ' ( ) * , : @`. -/
def isSegmentByte (b : UInt8) : Bool :=
  isUnreserved b || [33, 36, 39, 40, 41, 42, 44, 58, 64].contains b

def encodeQuery (s : String) : String := Percent.encode isUnreserved s

def encodeSegment (s : String) : String := Percent.encode isSegmentByte s

/-! ### The path -/

/-- Why a path template cannot be filled in. -/
inductive PathFault where
  | unterminated (template : String)
  | missingValue (name : String)
deriving DecidableEq, Repr, Inhabited

def PathFault.message : PathFault → String
  | .unterminated template => s!"Unterminated path placeholder in '{template}'"
  | .missingValue name => s!"Missing value for path parameter '{name}'"

/-- A piece of a path template; `broken` is an opening brace that is never closed. -/
inductive Piece where
  | literal (cs : List Char)
  | placeholder (name : String)
  | broken
deriving DecidableEq, Repr, Inhabited

/-- Splits a template into literals and placeholders in braces. `cs` holds the characters of the
piece under way in reverse, and `inside` tells whether it is a placeholder. -/
def piecesFrom (inside : Bool) (cs : List Char) : List Char → List Piece
  | [] => if inside then [.broken] else [.literal cs.reverse]
  | c :: rest =>
    if inside then
      if c = '\x7d' then .placeholder (String.ofList cs.reverse) :: piecesFrom false [] rest
      else piecesFrom true (c :: cs) rest
    else if c = '\x7b' then .literal cs.reverse :: piecesFrom true [] rest
    else piecesFrom false (c :: cs) rest

def pieces (template : String) : List Piece := piecesFrom false [] template.toList

def pieceText (r : Request) : Piece → Except PathFault String
  | .literal cs => .ok (String.ofList cs)
  | .placeholder name =>
    match r.pathValues.get? name with
    | none | some .null => .error (.missingValue name)
    | some v => .ok (encodeSegment (commaText v))
  | .broken => .error (.unterminated r.path)

/-- The path with every placeholder filled in; the first piece that has no text is reported. -/
def renderPath (r : Request) : Except PathFault String :=
  ((pieces r.path).mapM (pieceText r)).map String.join

/-! ### Query, headers and cookies -/

/-- A pair for each value that is not null, lists spread out. -/
def pairs (ms : Json.Members) : List (String × String) :=
  ms.entries.flatMap fun (name, v) => (present v).map fun item => (name, valueText item)

def queryPairs (r : Request) : List (String × String) := pairs r.query

/-- The query, none without pairs. -/
def queryText (r : Request) : Option String :=
  match r.queryPairs with
  | [] => none
  | ps => some ("&".intercalate (ps.map fun (k, v) => encodeQuery k ++ "=" ++ encodeQuery v))

/-- The headers that have a text. -/
def headerPairs (r : Request) : List (String × String) :=
  (r.headers.entries.map fun (name, v) => (name, commaText v)).filter (!Text.isEmpty ·.2)

/-- The value of the one cookie header, none without cookies. -/
def cookieText (r : Request) : Option String :=
  match pairs r.cookies with
  | [] => none
  | ps => some ("; ".intercalate (ps.map fun (k, v) => k ++ "=" ++ v))

/-- Whether a header parameter of this name has a value, in either case. -/
def hasHeader (r : Request) (name : String) : Bool :=
  r.headers.entries.any fun (k, v) => Text.equalsIgnoringCase k name && !v.isNull

end Request

end ToolGateway
