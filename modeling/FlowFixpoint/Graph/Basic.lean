/-
# FlowFixpoint.Graph.Basic — control-flow graphs and the look-ups on them.

A graph holds its blocks and nodes by position. Every block lists its nodes and the edges at it, once
as successors and once as predecessors, in the order the edges were added. The first three blocks are
the entry, the regular exit and the exceptional exit.

Looking something up by identifier comes in two forms: `block?` and `node?` answer `none` for what
the graph does not hold, `blockAt` and `nodeAt` fail with the stray identifier. The engine uses the
second form throughout, so that a run which reached outside its graph would say so.
-/
import FlowFixpoint.Graph.Node

namespace FlowFixpoint

/-! ## Blocks and edges -/

/-- The blocks that begin and end a graph. -/
inductive SpecialKind where
  | entry
  | exit
  | exceptionalExit
deriving DecidableEq

/-- How a block behaves. -/
inductive BlockKind where
  /-- A sequence of nodes with one way on. -/
  | regular
  /-- At most one node, then a way for each outcome. -/
  | conditional
  /-- One node that may throw: a way for each exception, and one past it. -/
  | exceptional
  /-- An entry or an exit; never holds nodes. -/
  | special (kind : SpecialKind)
deriving DecidableEq

/-- When an edge is taken. -/
inductive EdgeLabel where
  | unconditional
  | onTrue
  | onFalse
  | exception (type : ExceptionType)
deriving DecidableEq

/-- An edge between two blocks. -/
structure Edge where
  source : BlockId
  target : BlockId
  label : EdgeLabel
deriving DecidableEq

/-- A block with its nodes in the order of their execution, and the edges out of it and into it in
the order they were added. -/
structure Block where
  id : BlockId
  kind : BlockKind
  nodes : List NodeId := []
  successors : List Edge := []
  predecessors : List Edge := []
deriving DecidableEq

/-- The piece of code that a graph was made from. -/
inductive CodeUnit where
  | method (name className : String) (parameters : List LocalVar)
  | lambda (parameters : List LocalVar)
  /-- Code outside any method, such as an initializer. -/
  | loose (className : String)
deriving DecidableEq

/-- The formal parameters. -/
def CodeUnit.parameters : CodeUnit → List LocalVar
  | method _ _ parameters => parameters
  | lambda parameters => parameters
  | loose _ => []

/-! ## Graphs -/

/-- An identifier that a graph does not hold. -/
inductive Stray where
  | block (id : BlockId)
  | node (id : NodeId)
deriving DecidableEq

/-- A control-flow graph. -/
structure Graph where
  id : GraphId
  code : CodeUnit
  blocks : Array Block
  nodes : Array Node
  /-- The nodes that end the method, by position. -/
  returns : List NodeId
  /-- The locals that are never assigned twice. -/
  effectivelyFinal : Std.ExtTreeSet LocalVar

namespace Graph

/-- Where execution begins. -/
def entry (g : Graph) : BlockId := ⟨g.id, 0⟩

/-- Where execution ends without an exception. -/
def regularExit (g : Graph) : BlockId := ⟨g.id, 1⟩

/-- Where execution ends with an exception. -/
def exceptionalExit (g : Graph) : BlockId := ⟨g.id, 2⟩

/-- The block with this identifier; none for identifiers of other graphs. -/
def block? (g : Graph) (b : BlockId) : Option Block :=
  if b.graph = g.id then g.blocks[b.index]? else none

/-- The node with this identifier; none for identifiers of other graphs. -/
def node? (g : Graph) (n : NodeId) : Option Node :=
  if n.graph = g.id then g.nodes[n.index]? else none

/-- The block with this identifier, which has to be one of the graph. -/
def blockAt (g : Graph) (b : BlockId) : Except Stray Block :=
  match g.block? b with
  | some block => .ok block
  | none => .error (.block b)

/-- The node with this identifier, which has to be one of the graph. -/
def nodeAt (g : Graph) (n : NodeId) : Except Stray Node :=
  match g.node? n with
  | some node => .ok node
  | none => .error (.node n)

/-- The edges out of a block; none for identifiers of other graphs. -/
def successors (g : Graph) (b : BlockId) : List Edge :=
  match g.block? b with
  | some block => block.successors
  | none => []

/-- The edges into a block; none for identifiers of other graphs. -/
def predecessors (g : Graph) (b : BlockId) : List Edge :=
  match g.block? b with
  | some block => block.predecessors
  | none => []

/-- All edges, by the position of their source and, for one source, in the order they were added. -/
def edges (g : Graph) : List Edge := g.blocks.toList.flatMap Block.successors

/-- Where the first edge with this label leads. -/
def successor? (g : Graph) (b : BlockId) (label : EdgeLabel) : Option BlockId :=
  ((g.successors b).find? fun e => e.label = label).map Edge.target

/-- The nodes that end the method, by position. -/
def returnNodes (g : Graph) : Except Stray (List Node) := g.returns.mapM g.nodeAt

/-- Is the local never assigned twice? -/
def isEffectivelyFinal (g : Graph) (x : LocalVar) : Bool :=
  g.effectivelyFinal.contains x

/-- The local that a node reads, if the graph holds the node and it is a plain read. -/
def localRead? (g : Graph) (n : NodeId) : Option LocalVar :=
  match (g.node? n).map Node.kind with
  | some (.localRead x) => some x
  | _ => none

/-- Is the node the literal `null`? -/
def isNullLiteral (g : Graph) (n : NodeId) : Bool :=
  (g.node? n).map Node.kind = some (.literal .null)

end Graph

end FlowFixpoint
