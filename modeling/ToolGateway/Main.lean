import ToolGateway.CommandLine

/-!
# The program

The run sees the files of the disk as a tree that grows: a file that the run would need next is read
and put into the tree, until nothing is missing that the disk has. Then the run ends as it says.
-/

namespace ToolGateway.CommandLine

/-- The place that a path leads to when it is followed without looking, and the folders on the way.
-/
def trace (f : Files) (path : String) : Files × List String :=
  let start := if Source.isAbsolute path then [] else f.home
  (Files.names path).foldl (fun (f, place) name =>
    if name.isEmpty || name == "." then (f, place)
    else if name == ".." then (f.addFolder place, place.dropLast)
    else (f.addFolder place, place ++ [name])) (f, start)

/-- Puts a file or a folder of the disk into the tree; what cannot be read is left out. -/
def readInto (f : Files) (path : String) : IO Files := do
  let (traced, place) := trace f path
  try
    return traced.write place (← IO.FS.readBinFile path).toList
  catch
    | .inappropriateType .. => return traced.addFolder place
    | _ => return f

/-- Reads what a run needs, each file at most once. -/
partial def gather (w : World) (env : Variables) (args : List String) (done : List String) :
    IO World := do
  match missing? w env args with
  | some path =>
    if done.contains path then return w
    else gather { w with files := ← readInto w.files path } env args (path :: done)
  | none => return w

/-- Waits until the program is stopped. -/
partial def wait : IO Unit := do
  IO.sleep 1000
  wait

end ToolGateway.CommandLine

open ToolGateway CommandLine in
def main (args : List String) : IO UInt32 := do
  let config ← IO.getEnv "OPENAPI_MCP_CONFIG"
  let spec ← IO.getEnv "OPENAPI_MCP_SPEC"
  let env : Variables := fun name =>
    if name = "OPENAPI_MCP_CONFIG" then config
    else if name = "OPENAPI_MCP_SPEC" then spec
    else none
  let home := (Files.names (← IO.currentDir).toString).filter (!·.isEmpty)
  let files := (⟨home, [], []⟩ : Files).addFolder home
  let w ← gather ⟨files, []⟩ env args []
  match run w env args with
  | .exit code output errors =>
    IO.print output
    IO.eprint errors
    return UInt32.ofNat code
  | .serving =>
    wait
    return 0
