/-!
# Sets of scopes

A set of scopes is a list in rising order with each scope once.
-/

namespace ToolGateway.Scope

def insert (s : String) : List String → List String
  | [] => [s]
  | t :: rest => if s < t then s :: t :: rest else if s = t then t :: rest else t :: insert s rest

def insertAll (set : List String) (scopes : List String) : List String :=
  scopes.foldl (fun set s => insert s set) set

def setOf (scopes : List String) : List String := insertAll [] scopes

end ToolGateway.Scope
