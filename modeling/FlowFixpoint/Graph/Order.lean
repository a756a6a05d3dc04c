/-
# FlowFixpoint.Graph.Order — block orders and widening points.

Both come from depth-first walks of the flow graph. Blocks are ranked by the walk that follows
execution: in reverse postorder for forward flow, in postorder for backward flow, blocks that the
walk does not reach last, by position. Widening points belong to a direction's own walk: they are
the heads of edges that retreat in it, that is, whose tail does not finish after the head. Every
cycle that the walk reaches has such an edge.

The walk stands for petgraph's `DfsPostOrder`, a loop that keeps a stack: it looks at the vertex on
top, pushes the unseen successors of a vertex that it has not seen before, and pops a vertex whose
turn has come a second time as finished. The successors of a vertex are listed by the edges added
last first and pushed in this order, so the edge added first ends on top and is followed first. The
loop begins at a vertex of its own, which leads to the start blocks in their order and is no block.
Vertices finish in the same order as here, where successors are explored one inside the other.

Edges are added by the position of their source block and, for one source, in the order of that
block's list; backward they are the same edges in the same order with every edge turned round.
-/
import FlowFixpoint.Graph.DepthFirst
import FlowFixpoint.Graph.Direction

namespace FlowFixpoint

/-- The flow of a graph in one direction: where it starts, and its edges as pairs. -/
structure FlowGraph where
  starts : List BlockId
  arcs : List (BlockId × BlockId)

/-- The blocks that flow reaches next, in walking order. -/
def FlowGraph.next (f : FlowGraph) (b : BlockId) : List BlockId :=
  (f.arcs.filter fun arc => arc.1 = b).map Prod.snd

namespace Graph

/-- The first identifier among these that is no block of the graph. -/
def strayAmong? (g : Graph) (bs : List BlockId) : Option BlockId :=
  bs.find? fun b => (g.block? b).isNone

/-- The flow of the graph in a direction; all its blocks have to be blocks of the graph. -/
def flow (g : Graph) (d : Direction) : Except Stray FlowGraph :=
  let starts := d.starts g
  let arcs := g.edges.map fun e => (d.tail e, d.head e)
  match g.strayAmong? (starts ++ arcs.flatMap fun arc => [arc.1, arc.2]) with
  | some b => .error (.block b)
  | none => .ok { starts, arcs }

/-- The blocks that flow reaches, by a depth-first walk, those that finish last first. -/
def finishing (g : Graph) (d : Direction) : Except Stray (List BlockId) :=
  (g.flow d).map fun f => (Trail.ofRoots f.next g.blocks.size f.starts).finished

/-- The blocks that a list leaves out, by position. -/
def others (g : Graph) (reached : List BlockId) : List BlockId :=
  (g.blocks.toList.map Block.id).filter fun b => b ∉ reached

/-- All blocks: those reached from the entry in reverse postorder, then the others. -/
def reversePostorder (g : Graph) : Except Stray (List BlockId) :=
  (g.finishing .forward).map fun reached => reached ++ g.others reached

/-- All blocks: those reached from the entry in postorder, then the others. -/
def postorder (g : Graph) : Except Stray (List BlockId) :=
  (g.finishing .forward).map fun reached => reached.reverse ++ g.others reached

/-- The order in which pending blocks are visited. -/
def blockOrder (g : Graph) (d : Direction) : Except Stray (List BlockId) :=
  match d with
  | .forward => g.reversePostorder
  | .backward => g.postorder

/-- Does an arc lead to a block that finishes no earlier than the one it leaves? -/
def retreats (finished : List BlockId) (arc : BlockId × BlockId) : Bool :=
  arc.1 ∈ finished && arc.2 ∈ finished && finished.idxOf arc.2 ≤ finished.idxOf arc.1

/-- The blocks where merges may be widened: heads of retreating edges. -/
def wideningPoints (g : Graph) (d : Direction) : Except Stray (Std.ExtTreeSet BlockId) := do
  let f ← g.flow d
  let finished ← g.finishing d
  return Std.ExtTreeSet.ofList ((f.arcs.filter (retreats finished)).map Prod.snd)

end Graph

end FlowFixpoint
