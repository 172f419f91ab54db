import ToolGateway.Json.Token

/-!
# Reading JSON texts

`Json.parse?` reads a text as one value. The tokens drive a machine with one frame for each open
bracket; a bound on the number of frames refuses texts that nest too deeply. A repeated key keeps
its first place and its last value.
-/

namespace ToolGateway.Json

/-- An open bracket: the items read so far, in reverse, or the members read so far with the key
whose value comes next. -/
inductive Frame where
  | array (done : List Json)
  | object (done : Members) (key : String)
deriving Inhabited

inductive Expected where
  | value
  | itemOrEnd
  | keyOrEnd (done : Members)
  | key (done : Members)
  | colon
  | separator
  | nothing (v : Json)
deriving Inhabited

/-- A reading under way: the open brackets, innermost first, and what may come next. -/
structure Reading where
  frames : List Frame
  expected : Expected
deriving Inhabited

namespace Reading

def start : Reading := ⟨[], .value⟩

/-- Gives a complete value to the innermost open bracket. -/
def supply (v : Json) : List Frame → Reading
  | [] => ⟨[], .nothing v⟩
  | .array done :: fs => ⟨.array (v :: done) :: fs, .separator⟩
  | .object done key :: fs => ⟨.object (done.insert key v) key :: fs, .separator⟩

/-- Whether one more bracket may be opened. -/
def mayOpen (maxDepth : Option Nat) (frames : List Frame) : Bool :=
  match maxDepth with
  | none => true
  | some n => frames.length < n

/-- Starts a value with its first token. -/
def begin? (maxDepth : Option Nat) (fs : List Frame) : Token → Option Reading
  | .beginArray => if mayOpen maxDepth fs then some ⟨.array [] :: fs, .itemOrEnd⟩ else none
  | .beginObject =>
    if mayOpen maxDepth fs then some ⟨.object .empty "" :: fs, .keyOrEnd .empty⟩ else none
  | .scalar v => some (supply v fs)
  | .text s => some (supply (.str s) fs)
  | _ => none

def step? (maxDepth : Option Nat) (r : Reading) (t : Token) : Option Reading :=
  match r.expected, r.frames, t with
  | .value, fs, t => begin? maxDepth fs t
  | .itemOrEnd, .array done :: fs, .endArray => some (supply (.arr done.reverse) fs)
  | .itemOrEnd, fs, t => begin? maxDepth fs t
  | .keyOrEnd done, .object _ _ :: fs, .endObject => some (supply (.obj done) fs)
  | .keyOrEnd done, .object _ _ :: fs, .text k => some ⟨.object done k :: fs, .colon⟩
  | .key done, .object _ _ :: fs, .text k => some ⟨.object done k :: fs, .colon⟩
  | .colon, fs, .colon => some ⟨fs, .value⟩
  | .separator, .array done :: fs, .comma => some ⟨.array done :: fs, .value⟩
  | .separator, .array done :: fs, .endArray => some (supply (.arr done.reverse) fs)
  | .separator, .object done k :: fs, .comma => some ⟨.object done k :: fs, .key done⟩
  | .separator, .object done _ :: fs, .endObject => some (supply (.obj done) fs)
  | _, _, _ => none

def result? (r : Reading) : Option Json :=
  match r.expected with
  | .nothing v => some v
  | _ => none

end Reading

def ofTokens? (maxDepth : Option Nat) (ts : List Token) : Option Json :=
  (ts.foldlM (Reading.step? maxDepth) Reading.start).bind Reading.result?

/-- Reads a text as one value with at most `maxDepth` brackets open at once. -/
def parseWithin? (maxDepth : Option Nat) (text : String) : Option Json :=
  (Token.scan text).bind (ofTokens? maxDepth)

/-- The nesting that a document or message may have. -/
def depthLimit : Nat := 127

/-- Reads a text as one value, nested no deeper than `depthLimit`. -/
def parse? (text : String) : Option Json := parseWithin? (some depthLimit) text

end ToolGateway.Json
