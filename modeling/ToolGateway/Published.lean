import ToolGateway.Tool.Listing

/-!
# Published tools

The tools that clients can call at the moment, in the order in which their names appeared. Each name
is there once. Every tool is called through a chain of its own. Clients with sessions can be told
that the tools have changed.
-/

namespace ToolGateway

/-- The number of a client's connection. -/
abbrev Peer := Nat

/-- The sessions of clients: none are kept, or the connection of each is known by its name. -/
inductive Sessions where
  | stateless
  | stateful (peers : Dict Peer)
deriving Repr, Inhabited

namespace Sessions

def isStateful : Sessions → Bool
  | .stateful _ => true
  | .stateless => false

/-- Notes the connection of a session. -/
def observe (name : String) (peer : Peer) : Sessions → Sessions
  | .stateful peers => .stateful (peers.insert name peer)
  | .stateless => .stateless

def forget (name : String) : Sessions → Sessions
  | .stateful peers => .stateful (peers.erase name)
  | .stateless => .stateless

def peers : Sessions → List Peer
  | .stateful peers => peers.values
  | .stateless => []

/-- Sends a notice over every connection. Those that cannot be reached are forgotten. -/
def notify (reaches : Peer → Bool) : Sessions → List Peer × Sessions
  | .stateful peers =>
    let reached := peers.entries.filter (reaches ·.2)
    (reached.map (·.2), .stateful ⟨reached⟩)
  | .stateless => ([], .stateless)

end Sessions

/-- A tool with the chain that its calls go through. -/
structure Publication (σ : Type) where
  tool : Tool
  chain : List (Link σ)

/-- The tools that can be called, and what their calls go through besides. -/
structure Published (σ : Type) where
  links : List (Link σ)
  handler : Handler σ
  entries : List (Publication σ)
  sessions : Sessions

namespace Published

def none (links : List (Link σ)) (handler : Handler σ) (sessions : Sessions) : Published σ :=
  ⟨links, handler, [], sessions⟩

def names (p : Published σ) : List String := p.entries.map (·.tool.name)

def find? (p : Published σ) (name : String) : Option (Publication σ) :=
  p.entries.find? (·.tool.name == name)

def get? (p : Published σ) (name : String) : Option Tool := (p.find? name).map (·.tool)

/-- The tools as clients see them. -/
def listing (p : Published σ) : List Json := p.entries.map (·.tool.listing)

/-- Puts a publication in place of the first one with its name, or at the end. -/
def put (new : Publication σ) : List (Publication σ) → List (Publication σ)
  | [] => [new]
  | e :: rest => if e.tool.name = new.tool.name then new :: rest else e :: put new rest

/-- Publishes a tool in place of one with its name. -/
def add (p : Published σ) (t : Tool) : Published σ :=
  { p with entries := put ⟨t, Link.chain (t.link p.handler) p.links⟩ p.entries }

def addAll (p : Published σ) (tools : List Tool) : Published σ := tools.foldl add p

/-- Withdraws the tool under a name, and tells whether there was one. -/
def remove (p : Published σ) (name : String) : Bool × Published σ :=
  let entries := p.entries.filter (·.tool.name != name)
  (entries.length != p.entries.length, { p with entries })

/-- Tells clients that the tools have changed: the connections that were reached. -/
def notify (reaches : Peer → Bool) (p : Published σ) : List Peer × Published σ :=
  let (reached, sessions) := p.sessions.notify reaches
  (reached, { p with sessions })

def call (p : Published σ) (ctx : Context) (call : ToolCall) : StateM σ ToolResult :=
  match p.find? call.name with
  | .none => return .failure ("Tool not found: " ++ call.name)
  | some e => do
    let ctx := { ctx with tool := call.name, operation := some e.tool.operation }
    match ← Link.run e.chain ctx call with
    | .ok result => return result
    | .error e => return .failure e.message

end Published

end ToolGateway
