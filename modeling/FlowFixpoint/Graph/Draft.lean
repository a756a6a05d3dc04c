/-
# FlowFixpoint.Graph.Draft — graphs under construction.

A draft collects blocks, nodes, placements, trees, edges and effectively final locals in any order
and with any identifiers; nothing is refused on the way. `freeze` then either finds the first fault
or yields the graph. Three special blocks exist from the start. Edges are collected apart from the
blocks; freezing enters them there.

`Step` names the operations as data, so that what a sequence of them amounts to can be stated.
-/
import FlowFixpoint.Graph.Malformed
import FlowFixpoint.Graph.Shape

namespace FlowFixpoint

/-- A node under construction: what it does, its trees, and every block it was appended to. -/
structure DraftNode where
  kind : NodeKind
  trees : List TreeId := []
  placements : List BlockId := []

/-- A graph under construction. -/
structure Draft where
  graph : GraphId
  code : CodeUnit
  blocks : Array Block
  nodes : Array DraftNode := #[]
  edges : List Edge := []
  effectivelyFinal : Std.ExtTreeSet LocalVar := ∅
  /-- Nodes that were named before this draft created them, in the order they were named. -/
  unknown : List NodeId := []

namespace Draft

/-! ## Operations -/

/-- A draft with the entry and the two exits. -/
def start (graph : GraphId) (code : CodeUnit) : Draft where
  graph := graph
  code := code
  blocks :=
    #[{ id := ⟨graph, 0⟩, kind := .special .entry },
      { id := ⟨graph, 1⟩, kind := .special .exit },
      { id := ⟨graph, 2⟩, kind := .special .exceptionalExit }]

/-- The identifier of the next block. -/
def nextBlock (d : Draft) : BlockId := ⟨d.graph, d.blocks.size⟩

/-- The identifier of the next node. -/
def nextNode (d : Draft) : NodeId := ⟨d.graph, d.nodes.size⟩

/-- Is this a block of the draft as it stands? -/
def holdsBlock (d : Draft) (b : BlockId) : Bool :=
  b.graph = d.graph && b.index < d.blocks.size

/-- Is this a node of the draft as it stands? -/
def holdsNode (d : Draft) (n : NodeId) : Bool :=
  n.graph = d.graph && n.index < d.nodes.size

/-- Adds a block without nodes. -/
def addBlock (d : Draft) (kind : BlockKind) : Draft :=
  { d with blocks := d.blocks.push { id := d.nextBlock, kind } }

/-- Adds a node that stands in no block yet. -/
def create (d : Draft) (kind : NodeKind) : Draft :=
  { d with nodes := d.nodes.push { kind } }

/-- Puts a node at the end of a block. The node remembers the block even if there is no such block
yet; the block then does not list the node. -/
def append (d : Draft) (b : BlockId) (n : NodeId) : Draft :=
  if d.holdsNode n then
    { d with
      nodes := d.nodes.modify n.index fun p => { p with placements := p.placements ++ [b] }
      blocks :=
        if b.graph = d.graph then
          d.blocks.modify b.index fun block => { block with nodes := block.nodes ++ [n] }
        else d.blocks }
  else { d with unknown := d.unknown ++ [n] }

/-- Adds a node at the end of a block. -/
def push (d : Draft) (b : BlockId) (kind : NodeKind) : Draft :=
  (d.create kind).append b d.nextNode

/-- Lets a node answer for a source tree, once. -/
def attachTree (d : Draft) (n : NodeId) (tree : TreeId) : Draft :=
  if d.holdsNode n then
    { d with
      nodes := d.nodes.modify n.index fun p =>
        if tree ∈ p.trees then p else { p with trees := p.trees ++ [tree] } }
  else { d with unknown := d.unknown ++ [n] }

/-- Adds an edge. -/
def addEdge (d : Draft) (source target : BlockId) (label : EdgeLabel) : Draft :=
  { d with edges := d.edges ++ [{ source, target, label }] }

/-- Marks a local as never assigned twice. -/
def markFinal (d : Draft) (x : LocalVar) : Draft :=
  { d with effectivelyFinal := d.effectivelyFinal.insert x }

/-! ## Freezing -/

/-- The node at a position, once it stands in exactly one block and its operands exist. -/
def freezeNode (d : Draft) (p : DraftNode) (index : Nat) : Except Malformed Node :=
  let id : NodeId := ⟨d.graph, index⟩
  match p.placements with
  | [] => .error (.nodeWithoutBlock id)
  | [block] =>
    if d.holdsBlock block then
      match p.kind.operands.find? fun o => !d.holdsNode o with
      | some operand => .error (.unknownNode operand)
      | none => .ok { id, block, kind := p.kind, trees := p.trees }
    else .error (.unknownBlock block)
  | _ :: _ :: _ => .error (.nodeInMultipleBlocks id)

/-- Enters an edge at the block it leads to and at the block it comes from. -/
def enter (blocks : Array Block) (e : Edge) : Array Block :=
  let entered := blocks.modify e.target.index fun block =>
    { block with predecessors := block.predecessors ++ [e] }
  entered.modify e.source.index fun block => { block with successors := block.successors ++ [e] }

/-- Enters an edge, once both its ends, source before target, are blocks of the draft. -/
def link (d : Draft) (blocks : Array Block) (e : Edge) : Except Malformed (Array Block) :=
  match [e.source, e.target].find? fun b => !d.holdsBlock b with
  | some b => .error (.unknownBlock b)
  | none => .ok (enter blocks e)

/-- The first fault of a block with its edges: a listed node that is no node of the draft, or the way
in which the block fails its kind. -/
def blockFault? (d : Draft) (block : Block) : Option Malformed :=
  match block.nodes.find? fun n => !d.holdsNode n with
  | some node => some (.unknownNode node)
  | none =>
    (Shape.fault? block.kind block.nodes.length (block.successors.map Edge.label)).map
      fun fault => .invalidBlock block.id fault.reason

/-- The graph, or the first fault: of nodes named too early, then of edges, then of nodes, then of
blocks. -/
def freeze (d : Draft) : Except Malformed Graph :=
  match d.unknown with
  | node :: _ => .error (.unknownNode node)
  | [] =>
    match d.edges.foldlM d.link d.blocks with
    | .error fault => .error fault
    | .ok blocks =>
      match d.nodes.toList.zipIdx.mapM fun (p, index) => d.freezeNode p index with
      | .error fault => .error fault
      | .ok nodes =>
        match blocks.toList.findSome? d.blockFault? with
        | some fault => .error fault
        | none =>
          .ok {
            id := d.graph
            code := d.code
            blocks
            nodes := nodes.toArray
            returns := (nodes.filter fun n => n.kind.isReturn).map Node.id
            effectivelyFinal := d.effectivelyFinal }

/-! ## Sequences of operations -/

/-- One operation on a draft. -/
inductive Step where
  | addBlock (kind : BlockKind)
  | create (kind : NodeKind)
  | append (block : BlockId) (node : NodeId)
  | push (block : BlockId) (kind : NodeKind)
  | attachTree (node : NodeId) (tree : TreeId)
  | addEdge (source target : BlockId) (label : EdgeLabel)
  | markFinal (var : LocalVar)

/-- An identifier handed out by an operation. -/
inductive Made where
  | block (id : BlockId)
  | node (id : NodeId)

/-- Carries out one operation. -/
def apply (d : Draft) : Step → Draft
  | .addBlock kind => d.addBlock kind
  | .create kind => d.create kind
  | .append block node => d.append block node
  | .push block kind => d.push block kind
  | .attachTree node tree => d.attachTree node tree
  | .addEdge source target label => d.addEdge source target label
  | .markFinal var => d.markFinal var

/-- What an operation hands out. -/
def made? (d : Draft) : Step → Option Made
  | .addBlock _ => some (.block d.nextBlock)
  | .create _ | .push _ _ => some (.node d.nextNode)
  | _ => none

/-- Carries out operations in order. -/
def applyAll (d : Draft) (steps : List Step) : Draft :=
  steps.foldl apply d

/-- What operations hand out, in order. -/
def madeBy (d : Draft) : List Step → List Made
  | [] => []
  | step :: rest => (d.made? step).toList ++ (d.apply step).madeBy rest

end Draft

end FlowFixpoint
