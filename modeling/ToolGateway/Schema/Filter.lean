import ToolGateway.Error
import ToolGateway.Schema.Discriminator
import ToolGateway.Schema.Pattern

/-!
# Filtering a description

A filter changes a description before its references are resolved. Filters run in order; each can
be switched off by name, and the first that fails ends the run.
-/

namespace ToolGateway

/-- A named change of a description. -/
structure Filter where
  name : String
  run : Document → Except Error Document

namespace Filter

/-- Turns discriminators into plain alternatives. -/
def flattenDiscriminators : Filter :=
  ⟨"DiscriminatorFlattener", fun d => .ok (Schema.Discriminator.flattenAll d)⟩

/-- Removes patterns from schemas. -/
def removePatterns : Filter := ⟨"PatternPropertyRemover", fun d => .ok (Schema.removePatterns d)⟩

/-- The filters of a gateway, in order. -/
def standard : List Filter := [flattenDiscriminators, removePatterns]

/-- Whether a filter is on: it is unless it was switched off. -/
def isEnabled (switches : Dict Bool) (name : String) : Bool := (switches.get? name).getD true

/-- What came of a run: the names of the filters that were started, the description as the run left
it, and the failure that ended it. -/
structure Outcome where
  started : List String
  document : Document
  failure : Option Error

/-- Runs the filters that are on, in order, up to the first failure. -/
def runAll (switches : Dict Bool) : List Filter → Document → Outcome
  | [], d => ⟨[], d, none⟩
  | f :: rest, d =>
    if isEnabled switches f.name then
      match f.run d with
      | .ok d =>
        let out := runAll switches rest d
        { out with started := f.name :: out.started }
      | .error e => ⟨[f.name], d, some (.filter f.name e)⟩
    else runAll switches rest d

/-- The description after the standard filters. -/
def apply (switches : Dict Bool) (d : Document) : Except Error Document :=
  let out := runAll switches standard d
  match out.failure with
  | none => .ok out.document
  | some e => .error e

end Filter

end ToolGateway
