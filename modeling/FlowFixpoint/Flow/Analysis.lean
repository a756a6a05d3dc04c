/-
# FlowFixpoint.Flow.Analysis — what a client tells the engine.

An analysis is its boundary, which fixes the direction and the stores that flow starts with, and
its transfer: what each node makes of the flow that arrives. The transfer sees the scene, that is,
the graph, the values recorded so far, and whether a block is only passed again to answer a query.
-/
import FlowFixpoint.Flow.Outcome
import FlowFixpoint.Graph.Direction

namespace FlowFixpoint

/-- What a transfer may look at besides its node and the arriving flow. -/
structure Scene (V : Type) where
  graph : Graph
  values : Std.ExtTreeMap NodeId V
  /-- Is the block only passed again to answer a query? -/
  replay : Bool

/-- The value recorded for a node. -/
def Scene.value? {V : Type} (scene : Scene V) (n : NodeId) : Option V :=
  scene.values[n]?

/-- The stores that flow starts with. -/
inductive Boundary (S : Type) where
  /-- At the entry. -/
  | forward (initial : CodeUnit → S)
  /-- At the regular exit, given the nodes that end the method, and at the exceptional exit. -/
  | backward (regularExit : CodeUnit → List Node → S) (exceptionalExit : CodeUnit → S)

/-- An analysis with values in `V` and stores in `S`. -/
structure Analysis (V S : Type) where
  boundary : Boundary S
  transfer : Scene V → Node → Flow S → Outcome V S

namespace Analysis

variable {V S : Type}

/-- The direction of the analysis. -/
def direction (a : Analysis V S) : Direction :=
  match a.boundary with
  | .forward _ => .forward
  | .backward _ _ => .backward

/-- The start blocks with their stores. Backward the nodes that end the method are looked up. -/
def seeds (a : Analysis V S) (g : Graph) : Except Stray (List (BlockId × S)) :=
  match a.boundary with
  | .forward initial => .ok [(g.entry, initial g.code)]
  | .backward regularExit exceptionalExit =>
    g.returnNodes.map fun returns =>
      [(g.regularExit, regularExit g.code returns), (g.exceptionalExit, exceptionalExit g.code)]

end Analysis

end FlowFixpoint
