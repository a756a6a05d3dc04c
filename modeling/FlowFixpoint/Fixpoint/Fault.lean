/-
# FlowFixpoint.Fixpoint.Fault — why a run ends without a fixpoint.

A run ends early when it has used up its visits, when a checked merge turns out not to be an upper
bound, or when it meets an identifier that its graph does not hold.
-/
import FlowFixpoint.Graph.Malformed

namespace FlowFixpoint

/-- Why a run ended early. -/
inductive Fault where
  | malformed (cause : Malformed)
  | contract (block : BlockId) (details : String)
  | stray (id : Stray)
deriving DecidableEq

/-- A stray identifier in words. -/
def Stray.message : Stray → String
  | block id => s!"block {id} belongs to another graph"
  | node id => s!"node {id} belongs to another graph"

/-- The fault in words. -/
def Fault.message : Fault → String
  | malformed cause => s!"malformed CFG: {cause.message}"
  | contract block details => s!"lattice contract violated at block {block}: {details}"
  | stray id => id.message

end FlowFixpoint
