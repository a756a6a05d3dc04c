/-
# FlowFixpoint.Report — what can be asked after a run.

A report holds the findings of one or several runs and, for every graph that was run to a fixpoint,
what is needed to pass one of its blocks again. The stores around a node are not recorded: they are
found by passing the node's block from its recorded input, with the recorded values, up to the node.
An answer of `none` says that the report knows nothing about what was asked.
-/
import FlowFixpoint.Fixpoint.Run

namespace FlowFixpoint

/-- What is needed to pass a block of a graph again. -/
structure Replay (V S : Type) where
  graph : Graph
  analysis : Analysis V S

/-- The findings of runs, with the graphs they belong to. -/
@[ext]
structure Report (V S : Type) where
  findings : Findings V S := {}
  replays : Std.ExtTreeMap GraphId (Replay V S) := ∅

variable {V S : Type}

/-! ## Passing a block again -/

namespace Replay

/-- What a node makes of a flow when it is passed again. -/
def outcome (r : Replay V S) (values : Std.ExtTreeMap NodeId V) (flow : Flow S) (n : Node) :
    Outcome V S :=
  r.analysis.transfer { graph := r.graph, values, replay := true } n flow

/-- The flow behind nodes that are passed again one after the other. -/
def passAll (r : Replay V S) (values : Std.ExtTreeMap NodeId V) (input : Flow S)
    (nodes : List Node) : Flow S :=
  nodes.foldl (fun flow n => (r.outcome values flow n).flow) input

/-- The stores before and after a node, in the order of execution: from the flow into its block. -/
def around [Join S] (r : Replay V S) (values : Std.ExtTreeMap NodeId V) (input : Flow S)
    (n : Node) : Except Stray (Option (S × S)) := do
  let nodes ← r.graph.walk r.analysis.direction n.block
  match nodes.dropWhile fun m => m.id ≠ n.id with
  | [] => return none
  | m :: _ =>
    let arriving := r.passAll values input (nodes.takeWhile fun m => m.id ≠ n.id)
    let leaving := (r.outcome values arriving m).flow
    return some <| match r.analysis.direction with
      | .forward => (arriving.regular, leaving.regular)
      | .backward => (leaving.regular, arriving.regular)

end Replay

/-! ## Questions -/

namespace Report

/-- Nothing is known. -/
def empty : Report V S := {}

/-- The value recorded for a node. -/
def value? (r : Report V S) (n : NodeId) : Option V := r.findings.values[n]?

/-- The node that answers for a source tree. -/
def nodeForTree? (r : Report V S) (t : TreeId) : Option NodeId := r.findings.trees[t]?

/-- The value recorded for the node that answers for a source tree. -/
def valueForTree? (r : Report V S) (t : TreeId) : Option V := (r.nodeForTree? t).bind r.value?

/-- The flow recorded on the input side of a block. -/
def input? (r : Report V S) (b : BlockId) : Option (Flow S) := r.findings.inputs[b]?

/-- The value recorded for an effectively final local. -/
def final? (r : Report V S) (x : LocalVar) : Option V := r.findings.finals[x]?

/-- The stores before and after a node. -/
def storesAround [Join S] (r : Report V S) (n : NodeId) : Except Stray (Option (S × S)) :=
  match r.replays[n.graph]? with
  | none => .ok none
  | some replay =>
    match replay.graph.node? n with
    | none => .ok none
    | some node =>
      match r.findings.inputs[node.block]? with
      | none => .ok none
      | some input => replay.around r.findings.values input node

/-- The store before a node executes. -/
def storeBefore [Join S] (r : Report V S) (n : NodeId) : Except Stray (Option S) :=
  (r.storesAround n).map fun stores => stores.map Prod.fst

/-- The store after a node has executed. -/
def storeAfter [Join S] (r : Report V S) (n : NodeId) : Except Stray (Option S) :=
  (r.storesAround n).map fun stores => stores.map Prod.snd

/-- The store before the node that answers for a source tree. -/
def storeBeforeTree [Join S] (r : Report V S) (t : TreeId) : Except Stray (Option S) :=
  match r.nodeForTree? t with
  | none => .ok none
  | some n => r.storeBefore n

/-- The store after the node that answers for a source tree. -/
def storeAfterTree [Join S] (r : Report V S) (t : TreeId) : Except Stray (Option S) :=
  match r.nodeForTree? t with
  | none => .ok none
  | some n => r.storeAfter n

/-! ## Making reports -/

/-- Both reports in one; where both know something, the right one is believed. -/
def combine (r other : Report V S) : Report V S where
  findings := r.findings.combine other.findings
  replays := r.replays ∪ other.replays

/-- Two reports agree when their findings do. -/
def agrees [DecidableEq V] [DecidableEq S] (r other : Report V S) : Bool :=
  r.findings = other.findings

/-- The text of a report that knows nothing. -/
def emptyText : String :=
  Text.record "AnalysisResult"
    (["node_values", "tree_lookup", "inputs", "final_local_values"].map (· ++ ": " ++ Text.braced [])
      ++ ["graphs: []"])

/-- The report of a run. A run that ended early leaves its findings and answers no store query. -/
def ofRun (a : Analysis V S) (g : Graph) : Except (Failure V S) (Pass V S) → Report V S
  | .ok p =>
    { findings := p.findings
      replays := (∅ : Std.ExtTreeMap GraphId (Replay V S)).insert g.id { graph := g, analysis := a } }
  | .error failure => { findings := failure.pass.findings }

end Report

end FlowFixpoint
