import ToolGateway.Settings.Basic

/-!
# The base URL of the API

The base URL is given, or it is that of one of the servers that the description lists. The URL of a
server may have places for variables, which take their default values, and may be relative to the
place of the description.
-/

namespace ToolGateway

/-- Why there is no base URL. -/
inductive BaseUrlFault where
  | empty
  | noServers
  | noSuchServer (index count : Nat)
  | noUrl (index : Nat)
  | unsupported (text scheme : String)
  | relativeToFile (text : String)
  | badLocation (fault : Url.Fault)
  | invalid (text : String) (fault : Url.Fault)
deriving DecidableEq, Repr, Inhabited

def BaseUrlFault.message : BaseUrlFault → String
  | .empty => "API base URL is empty"
  | .noServers =>
    "No servers defined in OpenAPI specification. Please either define servers in your " ++
      "OpenAPI spec or provide an explicit apiBaseUrl."
  | .noSuchServer index count =>
    "Server index " ++ decimal index ++ " is out of bounds. OpenAPI spec has " ++ decimal count ++
      " server(s) defined. Valid indices are 0-" ++ decimal (count - 1) ++ "."
  | .noUrl index => "Server at index " ++ decimal index ++ " has no URL defined"
  | .unsupported text scheme => s!"Invalid URL: {text}. Unsupported scheme '{scheme}'"
  | .relativeToFile text =>
    s!"Invalid URL: {text}. Relative server URLs need an http(s) spec location " ++
      "(set apiBaseUrl explicitly)"
  | .badLocation fault => "Invalid OpenAPI spec URL: " ++ fault.message
  | .invalid text fault => s!"Invalid URL: {text}. " ++ fault.message

namespace BaseUrl

/-- Puts the default of one variable into its places. -/
def fillIn (text : String) (name value : String) : String :=
  String.ofList (Text.replaceChars ('\x7b' :: name.toList ++ ['\x7d']) value.toList text.toList)

/-- The variables of a server that have a default, in the order of the description. -/
def defaults (server : Json) : List (String × String) :=
  ((server.getObj? "variables").getD .empty).entries.filterMap fun (name, v) =>
    (v.getStr? "default").map (name, ·)

/-- Puts defaults into the places of their variables, one variable after the other. -/
def fill (text : String) (values : List (String × String)) : String :=
  values.foldl (fun text (name, value) => fillIn text name value) text

/-- The URL of the server at a place in the list, as written, with its variables filled in. -/
def ofServer (d : Document) (index : Nat) : Except BaseUrlFault String :=
  match (d.root.getArr? "servers").getD [] with
  | [] => .error .noServers
  | servers =>
    match servers[index]? with
    | none => .error (.noSuchServer index servers.length)
    | some server =>
      match ((server.getStr? "url").map Text.trim).filter (!·.isEmpty) with
      | none => .error (.noUrl index)
      | some text => .ok (fill text (defaults server))

/-- The text of the base URL that is chosen; without a choice it is that of the first server. -/
def chosen (choice : Option BaseUrlChoice) (d : Document) : Except BaseUrlFault String :=
  match choice with
  | some (.explicit text) => .ok (Text.trim text)
  | some (.server index) => ofServer d index
  | none => ofServer d 0

/-- Reads a relative URL against the location of the description. -/
def relative (text location : String) : Except BaseUrlFault Url :=
  if !Source.isWeb location then .error (.relativeToFile text)
  else
    match Url.parse location with
    | .error e => .error (.badLocation e)
    | .ok u => (u.withoutFragment.join text).mapError (.invalid text)

/-- Reads the text of a base URL, for a description from a location. -/
def ofText (text location : String) : Except BaseUrlFault Url :=
  if text.isEmpty then .error .empty
  else
    match Url.parse text with
    | .ok u =>
      if u.scheme == "http" || u.scheme == "https" then .ok u
      else .error (.unsupported text u.scheme)
    | .error .noBase => relative text location
    | .error e => .error (.invalid text e)

def resolve (choice : Option BaseUrlChoice) (d : Document) (location : String) : Except Error Url :=
  ((chosen choice d).bind (ofText · location)).mapError fun fault => .baseUrl fault.message

end BaseUrl

end ToolGateway
