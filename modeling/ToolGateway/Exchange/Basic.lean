import ToolGateway.MediaType
import ToolGateway.Request.Target
import ToolGateway.Text.Utf8

/-!
# Exchanges

An exchange sends one message to the described API and reads its reply. The body of a reply comes in
chunks; it can be read whole, or only as far as a limit allows.
-/

namespace ToolGateway

/-- A message to the API, with its headers in the order they are added. -/
structure Outgoing where
  method : String
  url : Url
  headers : List (String × String)
  body : Option String
deriving Repr, Inhabited

/-- A reply of the API. The length of the body may be declared; a reply that is not complete broke
off after its last chunk. -/
structure Reply where
  status : Nat
  contentType : Option String
  declaredLength : Option Nat
  chunks : List (List UInt8)
  complete : Bool
deriving DecidableEq, Repr, Inhabited

structure Outcome where
  status : Nat
  contentType : Option String
  body : String
deriving DecidableEq, Repr, Inhabited

/-- An API as it answers, with whatever state it keeps; no reply means that the connection failed.
-/
abbrev Server (σ : Type) := Outgoing → StateM σ (Option Reply)

/-- An API that cannot be reached. -/
def Server.unreachable : Server σ := fun _ => return none

namespace Outcome

/-- Whether the status says that the request or the server is at fault. -/
def isError (o : Outcome) : Bool := 400 ≤ o.status && o.status < 600

/-- Whether the body is declared to be JSON. -/
def isJson (o : Outcome) : Bool := o.contentType.any MediaType.declaresJson

end Outcome

namespace Outgoing

def isNameChar (c : Char) : Bool := c.isAlphanum || "!#$%&'*+-.^_`|~".toList.contains c

/-- Whether a text can be the value of a header: it has no control characters but tabs. -/
def isHeaderValue (s : String) : Bool :=
  s.toList.all fun c => (32 ≤ c.toNat && c.toNat ≠ 127) || c = '\t'

/-- Whether a header can be sent: its name is a token, and its value a header's. -/
def isHeader (h : String × String) : Bool :=
  !h.1.isEmpty && h.1.toList.all isNameChar && isHeaderValue h.2

/-- Whether the message can be sent at all. -/
def isSendable (m : Outgoing) : Bool :=
  m.headers.all isHeader && (m.url.scheme == "http" || m.url.scheme == "https")

end Outgoing

namespace Reply

/-- Reads a text whatever its bytes are. A byte order mark before it does not count. -/
def lossyText (bytes : List UInt8) : String :=
  match bytes with
  | 0xEF :: 0xBB :: 0xBF :: rest => Utf8.decodeLossy rest
  | bytes => Utf8.decodeLossy bytes

/-- Gathers chunks in a buffer of at most `max` bytes, none when they do not fit. What is in memory is
so short that the sum of two lengths is exact. -/
def gather (max : Nat) (buffer : List UInt8) : List (List UInt8) → Option (List UInt8)
  | [] => some buffer
  | chunk :: rest =>
    if buffer.length + chunk.length > max then none else gather max (buffer ++ chunk) rest

/-- The body as text, when it has at most `max` bytes. -/
def limitedText (r : Reply) (max : Nat) : Except CallFault String :=
  match r.declaredLength.filter (· > max) with
  | some n =>
    .error (.http ("Response too large: " ++ decimal n ++ " bytes (limit " ++ decimal max ++ ")"))
  | none =>
    match gather max [] r.chunks with
    | none => .error (.http ("Response too large: exceeded " ++ decimal max ++ " bytes"))
    | some bytes =>
      if !r.complete then .error .transport
      else
        match Utf8.decode? bytes with
        | some text => .ok text
        | none => .error (.http "Response is not valid UTF-8")

def text (r : Reply) : Option Nat → Except CallFault String
  | none => if r.complete then .ok (lossyText r.chunks.flatten) else .error .transport
  | some max => r.limitedText max

end Reply

end ToolGateway
