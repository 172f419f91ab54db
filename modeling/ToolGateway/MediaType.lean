import ToolGateway.Text.Basic

/-!
# Media types

A media type names a format, such as `application/problem+json; charset=utf-8`. Two questions are
asked: whether an entry of a request body offers JSON, which looks at the text before the parameters
only, and whether a response declares JSON, which reads the whole header value by its grammar.
-/

namespace ToolGateway.MediaType

/-- Whether an entry of a request body is JSON: `application/json`, or `application/` with a suffix
of `+json`; parameters and case do not count. -/
def offersJson (media : String) : Bool :=
  let essence := Text.lowerAscii
    (Text.trim (String.ofList (media.toList.takeWhile (· != ';'))))
  essence == "application/json" ||
    (Text.startsWith essence "application/" && Text.endsWith essence "+json")

/-- The characters of a type, a subtype, or a parameter's name or bare value. -/
def isTokenChar (c : Char) : Bool :=
  c.isAlphanum || "!#$%&'+-.^_`|~".toList.contains c

/-- The characters of a quoted parameter value. -/
def isQuotedChar (c : Char) : Bool := 32 ≤ c.toNat && c.toNat ≠ 127

/-- Where a reading of parameters stands: between two parameters, in a name, after the equals sign,
in a bare value, after an opening quote, in a quoted value, or after its closing quote. -/
inductive Position where
  | between
  | inName
  | valueStart
  | inValue
  | quoteStart
  | inQuotes
  | afterQuotes
deriving DecidableEq, Repr

/-- Takes one character of a list of parameters. A quote directly after the opening one belongs to
the value. -/
def advance? (c : Char) : Position → Option Position
  | .between =>
    if c = ' ' ∨ c = ';' then some .between else if isTokenChar c then some .inName else none
  | .inName => if c = '=' then some .valueStart else if isTokenChar c then some .inName else none
  | .valueStart =>
    if c = '"' then some .quoteStart else if isTokenChar c then some .inValue else none
  | .inValue => if c = ';' then some .between else if isTokenChar c then some .inValue else none
  | .quoteStart => if isQuotedChar c then some .inQuotes else none
  | .inQuotes =>
    if c = '"' then some .afterQuotes else if isQuotedChar c then some .inQuotes else none
  | .afterQuotes => if c = ';' then some .between else if c = ' ' then some .afterQuotes else none

def areParameters (cs : List Char) : Bool :=
  match cs.foldlM (fun position c => advance? c position) Position.between with
  | none | some .inName | some .quoteStart | some .inQuotes => false
  | some _ => true

/-- The subtype of a media type, in lowercase, with everything before the parameters; none when the
text is not a media type. -/
def subtype? (media : String) : Option (List Char) :=
  let (kind, rest) := media.toList.span isTokenChar
  match rest with
  | '/' :: rest =>
    let (sub, rest) := rest.span isTokenChar
    let parametersOk := match sub, rest with
      | _, [] => true
      | [], _ => false
      | _, ' ' :: rest | _, ';' :: rest => areParameters rest
      | _, _ => false
    if kind.isEmpty || !parametersOk then none else some (sub.map Text.lowerChar)
  | _ => none

/-- Whether a header value declares JSON: up to the last `+` after its first character the subtype
is `json`, or what follows that `+` is. -/
def declaresJson (media : String) : Bool :=
  match subtype? media with
  | none => false
  | some sub =>
    let suffix := (sub.reverse.takeWhile (· != '+')).reverse
    let before := sub.take (sub.length - suffix.length - 1)
    if before.isEmpty then sub == "json".toList
    else suffix == "json".toList || before == "json".toList

end ToolGateway.MediaType
