/-!
# What can go wrong

One type for every failure of the gateway, by cause, and the texts that users see.
-/

namespace ToolGateway

/-- Why a file could not be read as text. -/
inductive FileFault where
  | notFound
  | isDirectory
  | notDirectory
  | nameHasNul
  | nameTooLong
  | notUtf8
deriving DecidableEq, Repr, Inhabited

def FileFault.message : FileFault → String
  | .notFound => "No such file or directory (os error 2)"
  | .isDirectory => "Is a directory (os error 21)"
  | .notDirectory => "Not a directory (os error 20)"
  | .nameHasNul => "file name contained an unexpected NUL byte"
  | .nameTooLong => "File name too long (os error 36)"
  | .notUtf8 => "stream did not contain valid UTF-8"

/-- Why a call of the described API has no outcome. -/
inductive CallFault where
  | config (message : String)
  | runtime (message : String)
  | http (message : String)
  | transport
deriving DecidableEq, Repr, Inhabited

def CallFault.message : CallFault → String
  | .config m => "config error: " ++ m
  | .runtime m => "runtime error: " ++ m
  | .http m => "http error: " ++ m
  | .transport => "http transport error: the request could not be completed"

/-- Why a description could not be fetched: the connection failed, or the server refused with a
status. -/
inductive FetchFault where
  | transport
  | status (line : String)
deriving DecidableEq, Repr, Inhabited

def FetchFault.message : FetchFault → String
  | .transport => "the request could not be completed"
  | .status line => "server answered " ++ line

inductive Error where
  | config (message : String)
  | invalidDocument (location : String) (messages : List String)
  | fetch (url : String) (fault : FetchFault)
  | unreadable (path : String) (fault : FileFault)
  | filter (name : String) (cause : Error)
  | registration (method path message : String)
  | naming (message : String)
  | baseUrl (message : String)
  | chainExhausted (tool : String)
  | call (fault : CallFault)
  | tooLong
deriving DecidableEq, Repr, Inhabited

namespace Error

/-- A document that is invalid for one reason. -/
def invalid (location message : String) : Error := .invalidDocument location [message]

def message : Error → String
  | .config m => "Configuration error: " ++ m
  | .invalidDocument location messages =>
    s!"Invalid OpenAPI specification '{location}': " ++ "; ".intercalate messages
  | .fetch url fault => s!"OpenAPI error: failed to fetch spec from '{url}': " ++ fault.message
  | .unreadable path fault =>
    s!"OpenAPI error: failed to read spec file '{path}': " ++ fault.message
  | .filter name _ => "OpenAPI spec filtering failed by filter: " ++ name
  | .registration method path message =>
    s!"Unable to register tool for operation: {method} {path}. Error determining tool name: " ++
      message
  | .naming m => m
  | .baseUrl m => "API base URL error: " ++ m
  | .chainExhausted tool => s!"Tool call filter chain for '{tool}' exhausted without a result"
  | .call fault => "HTTP error: " ++ fault.message
  | .tooLong => "overflow when adding durations"

/-- The texts of a failure and of what lies behind it, one by one. -/
def causes : Error → List String
  | e@(.unreadable _ fault) => [e.message, fault.message]
  | e@(.filter _ cause) => e.message :: causes cause
  | e@(.call fault) => [e.message, fault.message]
  | e => [e.message]

end Error

end ToolGateway
