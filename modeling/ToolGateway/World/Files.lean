import ToolGateway.Error
import ToolGateway.Text.Basic
import ToolGateway.Text.Utf8

/-!
# Files

A tree of folders and files, by the names on the way from the root. A path is followed name by name:
every name but the last must be a folder's, `..` goes up and `.` stays.
-/

namespace ToolGateway

/-- A tree of files. Relative paths start in the folder `home`. -/
structure Files where
  home : List String
  folders : List (List String)
  contents : List (List String × List UInt8)
deriving Repr, Inhabited

namespace Files

inductive Entry where
  | folder
  | file (bytes : List UInt8)
deriving Repr, Inhabited

/-- The names of a path: what stands between its slashes. -/
def names (path : String) : List String := Text.splitOn '/' path

/-- What stands at a place of the tree, if anything does. -/
def entry? (f : Files) (place : List String) : Option Entry :=
  if place.isEmpty || f.folders.contains place then some .folder
  else (f.contents.lookup place).map .file

/-- The places on the way to a place, without the root and itself. -/
def above (place : List String) : List (List String) :=
  (List.range place.length).filterMap fun n => if n = 0 then none else some (place.take n)

/-- All places of the tree, and those on the way to the folder where relative paths start. -/
def places (f : Files) : List (List String) :=
  [] :: (f.home :: f.folders ++ f.contents.map (·.1)).flatMap fun place => above place ++ [place]

/-- Puts a folder into the tree, with the folders that it needs. -/
def addFolder (f : Files) (place : List String) : Files :=
  { f with folders := f.folders ++ (above place ++ [place]).filter (!f.folders.contains ·) }

/-- Puts a file into the tree, in place of one that is there, with the folders that it needs. -/
def write (f : Files) (place : List String) (bytes : List UInt8) : Files :=
  let f := (above place).foldl addFolder f
  { f with contents := f.contents.filter (·.1 != place) ++ [(place, bytes)] }

def delete (f : Files) (place : List String) : Files :=
  { f with contents := f.contents.filter (·.1 != place) }

/-- The longest name that a folder holds, in bytes. -/
def maxName : Nat := 255

/-- Goes from a place to the entry under a name. -/
def step (f : Files) (place : List String) (name : String) : Except FileFault (List String) :=
  match f.entry? place with
  | some .folder =>
    if name.isEmpty || name == "." then .ok place
    else if name == ".." then .ok place.dropLast
    else if (Utf8.encode name).length > maxName then .error .nameTooLong
    else if (f.entry? (place ++ [name])).isSome then .ok (place ++ [name])
    else .error .notFound
  | some (.file _) => .error .notDirectory
  | none => .error .notFound

/-- The place that a path leads to. -/
def follow (f : Files) (path : String) : Except FileFault (List String) :=
  if Text.mentions path '\x00' then .error .nameHasNul
  else if path.isEmpty then .error .notFound
  else (names path).foldlM f.step (if Text.startsWith path "/" then [] else f.home)

/-- The one path of a place that starts at the root and has nothing superfluous. -/
def pathOf (place : List String) : String := "/" ++ "/".intercalate place

/-- The one path of what a path leads to; a path that leads nowhere stands for itself. -/
def canonical (f : Files) (path : String) : String :=
  match f.follow path with
  | .ok place => pathOf place
  | .error _ => path

/-- The text of the file that a path leads to. -/
def read (f : Files) (path : String) : Except FileFault String :=
  match f.follow path with
  | .error e => .error e
  | .ok place =>
    match f.entry? place with
    | some (.file bytes) =>
      match Utf8.decode? bytes with
      | some text => .ok text
      | none => .error .notUtf8
    | _ => .error .isDirectory

end Files

end ToolGateway
