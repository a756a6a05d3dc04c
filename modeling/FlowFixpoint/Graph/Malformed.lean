/-
# FlowFixpoint.Graph.Malformed — what can be wrong with a control-flow graph.

Each cause carries the offender; `message` is the one place that words it.
-/
import FlowFixpoint.Graph.Basic

namespace FlowFixpoint

/-- Why a graph cannot be used. -/
inductive Malformed where
  | nodeWithoutBlock (node : NodeId)
  | nodeInMultipleBlocks (node : NodeId)
  | unknownBlock (block : BlockId)
  | unknownNode (node : NodeId)
  | invalidBlock (block : BlockId) (reason : String)
  /-- The visits allowed to an analysis did not reach a fixpoint. -/
  | nonTermination (visits : Nat)
deriving DecidableEq

/-- The cause in words. -/
def Malformed.message : Malformed → String
  | nodeWithoutBlock node => s!"node {node} is not placed in any block"
  | nodeInMultipleBlocks node => s!"node {node} is placed in more than one block"
  | unknownBlock block => s!"unknown block {block}"
  | unknownNode node => s!"unknown node {node}"
  | invalidBlock block reason => s!"invalid block {block}: {reason}"
  | nonTermination visits =>
    s!"no fixpoint after {visits} block visits (cycle without a widening-capable lattice)"

end FlowFixpoint
