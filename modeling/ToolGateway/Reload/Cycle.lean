import ToolGateway.Reload.Diff
import ToolGateway.Toolset

/-!
# Reload cycles

A cycle looks whether there is a new description and brings the published tools up to date. It makes
several attempts, with longer and longer waits between them. Cycles can overlap, but only one of
them works at a time: one that starts while another is at work is skipped. A cycle is a machine that
goes from one wait to the next: for the description to be read, for clients to be told, or for the
time of the next attempt.
-/

namespace ToolGateway

/-- What comes of a cycle. -/
inductive ReloadOutcome where
  | updated (removed upserted : Nat)
  | noChange
  | failure
  | interrupted
  | skipped
deriving DecidableEq, Repr, Inhabited

namespace Reload

/-- What all cycles share: the tools, and whether a cycle is at work. -/
structure Shared where
  tools : Toolset
  running : Bool
deriving Inhabited

/-- What a cycle knows from its start: the catalog and the version then, and how many attempts to
make at most. -/
structure Plan where
  before : Catalog
  version : Option String
  attempts : Nat
deriving Inhabited

/-- Where a cycle stands. -/
inductive Cycle where
  | fetching (plan : Plan) (attempt : Nat)
  | notifying (outcome : ReloadOutcome)
  | waiting (plan : Plan) (attempt : Nat) (seconds : Nat)
  | over (outcome : ReloadOutcome)
deriving Inhabited

/-- What a cycle waits for. -/
inductive Event where
  | fetched (w : World)
  | notified
  | slept
  | cancelled
deriving Inhabited

/-! ### Attempts -/

/-- The greatest factor by which a wait is prolonged. -/
def maxFactor : Nat := 0xFFFFFFFF

/-- The wait in seconds after an attempt, for a first wait of `base` seconds: it doubles every time.
-/
def delay (base attempt : Nat) : Nat := base * min (Nat.pow 2 (attempt - 1)) maxFactor

/-- The first wait in seconds. -/
def usualWait : Nat := 1

/-- One attempt: what comes of it, with the changes that it asks for. -/
def attempt (w : World) (plan : Plan) (t : Toolset) :
    Except Error (ReloadOutcome × List Change) × Toolset :=
  match t.registry.reloadIfUpdated w plan.version with
  | (.error e, registry) => (.error e, { t with registry })
  | (.ok false, registry) => (.ok (.noChange, []), { t with registry })
  | (.ok true, registry) =>
    match { t with registry }.compile with
    | (.error e, t) => (.error e, t)
    | (.ok after, t) =>
      let d := Diff.between plan.before after
      (.ok (.updated d.removed.length d.upserted.length, d.changes after), t)

/-! ### The machine -/

def start (attempts : Nat) (s : Shared) : Cycle × Shared :=
  if s.running then (.over .skipped, s)
  else
    let plan : Plan := ⟨s.tools.catalog, s.tools.knownVersion, max 1 attempts⟩
    (.fetching plan 1, { s with running := true })

def finish (outcome : ReloadOutcome) (s : Shared) : Cycle × Shared × List Change :=
  (.over outcome, { s with running := false }, [])

/-- What a cycle does when the description can be read. -/
def onFetched (w : World) (plan : Plan) (n : Nat) (s : Shared) : Cycle × Shared × List Change :=
  match attempt w plan s.tools with
  | (.error _, tools) =>
    if n < plan.attempts then (.waiting plan n (delay usualWait n), { s with tools }, [])
    else finish .failure { s with tools }
  -- Without changes there is nobody to tell.
  | (.ok (outcome, []), tools) => finish outcome { s with tools }
  | (.ok (outcome, changes), tools) => (.notifying outcome, { s with tools }, changes)

/-- Takes one step. An event that a cycle does not wait for changes nothing. -/
def step (e : Event) (c : Cycle) (s : Shared) : Cycle × Shared × List Change :=
  match c, e with
  | .fetching plan n, .fetched w => onFetched w plan n s
  | .notifying outcome, .notified => finish outcome s
  | .waiting plan n _, .slept => (.fetching plan (n + 1), s, [])
  | .waiting _ _ _, .cancelled => finish .interrupted s
  | c, _ => (c, s, [])

/-! ### Cycles by themselves -/

/-- What happens around a cycle: the world that each attempt sees, and whether waits are cancelled.
-/
structure Surroundings where
  world : Nat → World
  cancelled : Bool

/-- The event that a cycle gets, none when it is over. -/
def Surroundings.event? (r : Surroundings) : Cycle → Option Event
  | .fetching _ n => some (.fetched (r.world n))
  | .notifying _ => some .notified
  | .waiting _ _ _ => some (if r.cancelled then .cancelled else .slept)
  | .over _ => none

/-- An upper bound for the number of steps that a cycle still takes. -/
def Cycle.steps : Cycle → Nat
  | .fetching plan n => 2 * (plan.attempts - n) + 2
  | .waiting plan n _ => 2 * (plan.attempts - n) + 1
  | .notifying _ => 1
  | .over _ => 0

/-- Takes steps until the cycle is over, at most a number of them. -/
def drive (r : Surroundings) : Nat → Cycle → Shared → Cycle × Shared × List Change
  | 0, c, s => (c, s, [])
  | fuel + 1, c, s =>
    match r.event? c with
    | none => (c, s, [])
    | some e =>
      let (c, s, changes) := step e c s
      let (c, s, more) := drive r fuel c s
      (c, s, changes ++ more)

/-- What came of a cycle that is over. -/
def Cycle.outcome : Cycle → ReloadOutcome
  | .over outcome => outcome
  | _ => .failure

/-- Runs a whole cycle while no other one is started. -/
def run (r : Surroundings) (attempts : Nat) (s : Shared) : ReloadOutcome × Shared × List Change :=
  let (c, s) := start attempts s
  let (c, s, changes) := drive r c.steps c s
  (c.outcome, s, changes)

end Reload

end ToolGateway
