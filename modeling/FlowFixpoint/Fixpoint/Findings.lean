/-
# FlowFixpoint.Fixpoint.Findings — the tables that a run fills.

Four tables: the flow recorded on the input side of a block (its beginning forward, its end
backward), the value recorded for a node, the node that answers for a source tree, and the value of
an effectively final local. Findings are equal exactly when the tables agree entry by entry.
-/
import FlowFixpoint.Flow.Outcome
import FlowFixpoint.Graph.Node

namespace FlowFixpoint

/-- What a run has found. -/
@[ext]
structure Findings (V S : Type) where
  inputs : Std.ExtTreeMap BlockId (Flow S) := ∅
  values : Std.ExtTreeMap NodeId V := ∅
  trees : Std.ExtTreeMap TreeId NodeId := ∅
  finals : Std.ExtTreeMap LocalVar V := ∅
deriving DecidableEq

namespace Findings

variable {V S : Type}

/-- Lets a node answer for its trees. -/
def noteTrees (f : Findings V S) (n : Node) : Findings V S :=
  { f with trees := n.trees.foldl (fun trees t => trees.insert t n.id) f.trees }

/-- Records values of effectively final locals, later ones over earlier ones. -/
def noteFinals (f : Findings V S) (finals : List (LocalVar × V)) : Findings V S :=
  { f with finals := finals.foldl (fun table entry => table.insert entry.1 entry.2) f.finals }

/-- Records the value of a node; without a value the recorded one stays. -/
def noteValue (f : Findings V S) (n : NodeId) : Option V → Findings V S
  | some v => { f with values := f.values.insert n v }
  | none => f

/-- Would recording this value change the table? -/
def isNews [DecidableEq V] (f : Findings V S) (n : NodeId) : Option V → Bool
  | some v => f.values[n]? ≠ some v
  | none => false

/-- The tables of both sides; where both have an entry, the right one. -/
def combine (f g : Findings V S) : Findings V S where
  inputs := f.inputs ∪ g.inputs
  values := f.values ∪ g.values
  trees := f.trees ∪ g.trees
  finals := f.finals ∪ g.finals

end Findings

end FlowFixpoint
