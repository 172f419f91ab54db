import ToolGateway.Json.Basic
import ToolGateway.Yaml.Node

/-!
# YAML values

What the nodes of a document stand for. Plain scalars are resolved by the core schema: null,
booleans, integers, floats, and text for everything else. A text can be read as a YAML value, where
keys are values too and a key may not repeat, or as a JSON value, where a key is the text of its
scalar and the last of equal keys counts.
-/

namespace ToolGateway

/-- A YAML value. `odd` stands for the infinities and for what is not a number; a tag is one that
has no meaning of its own here. -/
inductive Yaml where
  | null
  | bool (b : Bool)
  | int (n : Int)
  | float (x : Binary64)
  | odd (name : String)
  | str (s : String)
  | list (items : List Yaml)
  | map (entries : List (Yaml × Yaml))
  | tagged (tag : String) (value : Yaml)
deriving Repr, Inhabited

namespace Yaml

/-! ### Plain scalars -/

/-- The value of digits in a base, none for no digits or a digit that is too large. -/
def digits? (base : Nat) (cs : List Char) : Option Nat :=
  if cs.isEmpty then none
  else cs.foldlM (fun n c => (hexValue? c).bind fun d =>
    if d < base then some (base * n + d) else none) 0

/-- The value of digits after the sign of their base: `0x`, `0o` or `0b`. -/
def based? : List Char → Option Nat
  | '0' :: 'x' :: cs => digits? 16 cs
  | '0' :: 'o' :: cs => digits? 8 cs
  | '0' :: 'b' :: cs => digits? 2 cs
  | _ => none

/-- Whether digits start with a zero that does not belong to a number. -/
def hasLeadingZero : List Char → Bool
  | '0' :: c :: cs => isDigit c && cs.all isDigit
  | _ => false

/-- The value of digits in any base. -/
def natural? (cs : List Char) : Option Nat :=
  (based? cs).or (if hasLeadingZero cs then none else digits? 10 cs)

/-- The integer that a text writes. -/
def integer? : List Char → Option Int
  | '-' :: cs => (natural? cs).map fun n => -(n : Int)
  | '+' :: cs => (natural? cs).map Int.ofNat
  | cs => (natural? cs).map Int.ofNat

def exponent? : List Char → Option Int
  | [] => some 0
  | e :: cs =>
    if e ≠ 'e' ∧ e ≠ 'E' then none
    else
      match cs with
      | '-' :: cs => (digits? 10 cs).map fun n => -(n : Int)
      | '+' :: cs => (digits? 10 cs).map Int.ofNat
      | cs => (digits? 10 cs).map Int.ofNat

/-- The double nearest to `digits · 10 ^ exponent`, none when it is too large. -/
def nearest? (negative : Bool) (digits : Nat) (exponent : Int) : Option Binary64 :=
  let size : Int := (decimal digits).length + exponent
  if digits = 0 ∨ size < -400 then some ⟨negative, 0⟩
  else if size > 400 then none
  else if exponent < 0 then
    Binary64.ofUnits? negative (digits * Binary64.one) (Nat.pow 10 exponent.natAbs)
  else Binary64.ofUnits? negative (digits * Nat.pow 10 exponent.natAbs * Binary64.one) 1

/-- The double that digits with an optional point and exponent write. -/
def decimal? (negative : Bool) (cs : List Char) : Option Binary64 := do
  let whole := cs.takeWhile isDigit
  let (fraction, rest) := match cs.dropWhile isDigit with
    | '.' :: rest => (rest.takeWhile isDigit, rest.dropWhile isDigit)
    | rest => ([], rest)
  if whole.isEmpty && fraction.isEmpty then none
  let exponent ← exponent? rest
  nearest? negative (decimalValue 0 (whole ++ fraction)) (exponent - fraction.length)

/-- The finite double that a text writes. -/
def double? : List Char → Option Binary64
  | '-' :: cs => decimal? true cs
  | '+' :: cs => decimal? false cs
  | cs => decimal? false cs

/-- The float that a text writes; there are words for what is not finite. -/
def float? (text : String) : Option Yaml :=
  match text with
  | ".inf" | ".Inf" | ".INF" | "+.inf" | "+.Inf" | "+.INF" => some (.odd ".inf")
  | "-.inf" | "-.Inf" | "-.INF" => some (.odd "-.inf")
  | ".nan" | ".NaN" | ".NAN" => some (.odd ".nan")
  | _ => (double? text.toList).map .float

/-- The words for null. -/
def isNullWord (text : String) : Bool := ["null", "Null", "NULL", "~"].contains text

/-- The boolean that a word stands for. -/
def boolWord? (text : String) : Option Bool :=
  if ["true", "True", "TRUE"].contains text then some true
  else if ["false", "False", "FALSE"].contains text then some false
  else none

/-- Whether an integer fits 64 bits, signed or not. -/
def fitsWord (n : Int) : Bool := -0x8000000000000000 ≤ n && n < 0x10000000000000000

/-- Whether an integer fits 128 bits, signed or not. -/
def fitsDoubleWord (n : Int) : Bool := 
  -0x80000000000000000000000000000000 ≤ n && n < 0x100000000000000000000000000000000

/-- Resolves an integer: what exceeds 64 bits is refused, what exceeds 128 bits is no integer. -/
def ofInteger (n : Int) (otherwise : Option Yaml) : Option Yaml :=
  if fitsWord n then some (.int n) else if fitsDoubleWord n then none else otherwise

/-- Whether digits after an optional sign start with a zero that does not belong to a number. -/
def hasSignedLeadingZero : List Char → Bool
  | '-' :: cs | '+' :: cs => hasLeadingZero cs
  | cs => hasLeadingZero cs

/-- What a plain scalar that is no integer stands for. -/
def ofOther (text : String) : Yaml :=
  if hasSignedLeadingZero text.toList then .str text else (float? text).getD (.str text)

/-- What a plain scalar stands for. -/
def ofPlain (text : String) : Option Yaml :=
  if text.isEmpty || isNullWord text then some .null
  else
    match boolWord? text, integer? text.toList with
    | some b, _ => some (.bool b)
    | none, some n => ofInteger n (some (ofOther text))
    | none, none => some (ofOther text)

/-- What a scalar stands for without a tag. -/
def ofUntagged (text : String) (plain : Bool) : Option Yaml :=
  if plain then ofPlain text else some (.str text)

/-- The name of a tag that has no meaning of its own here. -/
def localTag? (tag : Option String) : Option String := tag.bind (Text.afterStart? · "!")

/-- What a scalar stands for. The tags of the core schema ask for a kind of value. -/
def ofScalar (tag : Option String) (text : String) (plain : Bool) : Option Yaml :=
  match tag with
  | none => ofUntagged text plain
  | some "tag:yaml.org,2002:null" => if isNullWord text then some .null else none
  | some "tag:yaml.org,2002:bool" => (boolWord? text).map .bool
  | some "tag:yaml.org,2002:int" => (integer? text.toList).bind (ofInteger · none)
  | some "tag:yaml.org,2002:float" => float? text
  | some tag =>
    match localTag? (some tag) with
    | some "" => none
    | some name => (ofUntagged text plain).map (.tagged name)
    | none => some (.str text)

/-! ### Documents -/

/-- How deep collections may be nested. -/
def depthLimit : Nat := 128

/-- Readers of documents count the aliases they follow. -/
abbrev Resolver := StateT Nat Option

/-- The node that an alias points to, or the node itself. A document of `n` events may follow `100
n` aliases in all. -/
def target (d : Parsed) (limit : Nat) (n : Yaml.Node) : Resolver Yaml.Node := do
  match n with
  | .alias number =>
    let followed ← get
    set (followed + 1)
    if followed + 1 > limit then failure
    match d.anchored.lookup number with
    | some n => return n
    | none => failure
  | n => return n

/-- Whether two values are equal as keys. -/
def same : Yaml → Yaml → Bool
  | .null, .null => true
  | .bool a, .bool b => a == b
  | .int a, .int b => a == b
  | .float a, .float b => a.equals b
  | .odd a, .odd b => a == b
  | .str a, .str b => a == b
  | .list xs, .list ys => sameItems xs ys
  | .map xs, .map ys => sameEntries xs ys
  | .tagged t x, .tagged u y => t == u && same x y
  | _, _ => false
where
  sameItems : List Yaml → List Yaml → Bool
    | [], [] => true
    | x :: xs, y :: ys => same x y && sameItems xs ys
    | _, _ => false
  sameEntries : List (Yaml × Yaml) → List (Yaml × Yaml) → Bool
    | [], [] => true
    | (k, v) :: xs, (l, w) :: ys => same k l && same v w && sameEntries xs ys
    | _, _ => false

/-- Puts a tag without a meaning around a value; the tag must have a name. -/
def tagWith (tag : Option String) (v : Yaml) : Option Yaml :=
  match localTag? tag with
  | some "" => none
  | some name => some (.tagged name v)
  | none => some v

/-- The value of a node. -/
def ofNode (d : Parsed) (limit : Nat) (depth : Nat) (n : Yaml.Node) : Resolver Yaml := do
  match ← target d limit n, depth with
  | .scalar tag text plain, _ => ofScalar tag text plain
  | .list tag items, depth + 1 =>
    let items ← items.mapM (ofNode d limit depth)
    tagWith tag (.list items)
  | .map tag entries, depth + 1 =>
    let entries ← entries.foldlM (fun done (k, v) => do
      let k ← ofNode d limit depth k
      if done.any (same k ·.1) then failure
      return done ++ [(k, ← ofNode d limit depth v)]) []
    tagWith tag (.map entries)
  | _, _ => failure

/-- The JSON value for a scalar's value; tags have none. -/
def toJson? : Yaml → Option Json
  | .null | .odd _ => some .null
  | .bool b => some (.bool b)
  | .int n => some (.int n)
  | .float x => some (.float x)
  | .str s => some (.str s)
  | _ => none

/-- The JSON value of a node; keys are scalars. -/
def jsonOfNode (d : Parsed) (limit : Nat) (depth : Nat) (n : Yaml.Node) : Resolver Json := do
  match ← target d limit n, depth with
  | .scalar tag text plain, _ => (ofScalar tag text plain).bind toJson?
  | .list tag items, depth + 1 =>
    if (localTag? tag).isSome then failure
    return .arr (← items.mapM (jsonOfNode d limit depth))
  | .map tag entries, depth + 1 =>
    if (localTag? tag).isSome then failure
    let members ← entries.mapM fun (k, v) => do
      match ← target d limit k with
      | .scalar _ key _ => return (key, ← jsonOfNode d limit depth v)
      | _ => failure
    return .obj (Dict.ofList members)
  | _, _ => failure

/-- Reads the document of a text with a reader of nodes; an empty text has the value `empty`. -/
def readWith (read : Parsed → Nat → Nat → Yaml.Node → Resolver α) (empty : α) (text : String) :
    Option α := do
  let d ← Yaml.Node.ofTokens? (← Token.scan text)
  match d.root with
  | none => return empty
  | some n => return (← (read d (100 * n.events) depthLimit n).run 0).1

def parse? (text : String) : Option Yaml := readWith ofNode .null text

def parseJson? (text : String) : Option Json := readWith jsonOfNode .null text

mutual

def ofJson : Json → Yaml
  | .null => .null
  | .bool b => .bool b
  | .int n => .int n
  | .float x => .float x
  | .str s => .str s
  | .arr items => .list (ofJsonItems items)
  | .obj ⟨members⟩ => .map (ofJsonMembers members)

def ofJsonItems : List Json → List Yaml
  | [] => []
  | v :: rest => ofJson v :: ofJsonItems rest

def ofJsonMembers : List (String × Json) → List (Yaml × Yaml)
  | [] => []
  | (k, v) :: rest => (.str k, ofJson v) :: ofJsonMembers rest

end

end Yaml

end ToolGateway
