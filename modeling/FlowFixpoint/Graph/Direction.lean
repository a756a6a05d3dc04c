/-
# FlowFixpoint.Graph.Direction — the two ways through a graph.

Forward, stores flow with execution from the entry; backward, against it from both exits. The
direction decides where flow starts, which blocks it reaches next, and in which order the nodes of
a block are passed.
-/
import FlowFixpoint.Graph.Basic

namespace FlowFixpoint

/-- The way in which stores flow. -/
inductive Direction where
  | forward
  | backward
deriving DecidableEq

namespace Direction

/-- The direction in words. -/
def name : Direction → String
  | forward => "forward"
  | backward => "backward"

/-- Where flow starts. -/
def starts (d : Direction) (g : Graph) : List BlockId :=
  match d with
  | forward => [g.entry]
  | backward => [g.regularExit, g.exceptionalExit]

/-- The edges of a block that flow takes out of it. -/
def edgesOf (d : Direction) (block : Block) : List Edge :=
  match d with
  | forward => block.successors
  | backward => block.predecessors

/-- The end of an edge that flow comes from. -/
def tail (d : Direction) (e : Edge) : BlockId :=
  match d with
  | forward => e.source
  | backward => e.target

/-- The end of an edge that flow goes to. -/
def head (d : Direction) (e : Edge) : BlockId :=
  match d with
  | forward => e.target
  | backward => e.source

/-- The blocks that flow reaches next. -/
def flowTargets (d : Direction) (block : Block) : List BlockId :=
  (d.edgesOf block).map d.head

/-- The nodes of a block in the order they are passed. -/
def passed (d : Direction) (block : Block) : List NodeId :=
  match d with
  | forward => block.nodes
  | backward => block.nodes.reverse

end Direction

/-- A flow edge out of a block: its label, the block it reaches, and that block's kind. -/
structure Route where
  label : EdgeLabel
  reached : BlockId
  kind : BlockKind
deriving DecidableEq

namespace Graph

/-- The nodes of a block in the order a direction passes them. -/
def passedBy (g : Graph) (d : Direction) (block : Block) : Except Stray (List Node) :=
  (d.passed block).mapM g.nodeAt

/-- The nodes of the block with this identifier in the order a direction passes them. -/
def walk (g : Graph) (d : Direction) (b : BlockId) : Except Stray (List Node) := do
  let block ← g.blockAt b
  g.passedBy d block

/-- The flow edges out of a block, in the order they were added. -/
def routes (g : Graph) (d : Direction) (block : Block) : Except Stray (List Route) :=
  (d.edgesOf block).mapM fun e => do
    let reached ← g.blockAt (d.head e)
    return { label := e.label, reached := d.head e, kind := reached.kind }

end Graph

end FlowFixpoint
