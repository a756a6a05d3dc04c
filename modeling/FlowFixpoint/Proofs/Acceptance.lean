/-
# FlowFixpoint.Proofs.Acceptance — which sequences of operations freeze, and into what.

A draft refuses nothing on the way, so whether it freezes depends on the whole sequence of operations.
`Acceptable` says on what, in terms of the sequence alone: nodes are named only after they have been
created, edges end at blocks, every node is put into exactly one block and has nodes for operands, and
every block has the form of its kind. Blocks and operands may come later than what refers to them.
Two numbers of nodes have to be kept apart: a node belongs to the block it was put into, whenever that
was, but only a block that exists already takes the node into its list, and the form of a block counts
its list.

`Records` ties a draft to the sequence that made it, table by table, as long as no node is named too
early. Everything `freeze` looks at can then be read off the sequence, and so can the graph. The edges
at a block are what the loop over all edges has entered there, each edge once at either end.
-/
import FlowFixpoint.Proofs.Ownership
import Mathlib.Data.Nat.Basic
import Mathlib.Order.Basic

namespace FlowFixpoint

/-! ## What operations put down -/

namespace Draft

namespace Step

/-- The kind of the block that the operation adds. -/
def addedBlock? : Step → Option BlockKind
  | .addBlock kind => some kind
  | _ => none

/-- The kind of the node that the operation creates. -/
def createdNode? : Step → Option NodeKind
  | .create kind | .push _ kind => some kind
  | _ => none

/-- The edge that the operation adds. -/
def addedEdge? : Step → Option Edge
  | .addEdge source target label => some { source, target, label }
  | _ => none

/-- The node that the operation takes to be there. -/
def namedNode? : Step → Option NodeId
  | .append _ node | .attachTree node _ => some node
  | _ => none

end Step

/-- The kinds of the blocks, by position. -/
def blockKinds (steps : List Step) : List BlockKind :=
  [.special .entry, .special .exit, .special .exceptionalExit] ++ steps.filterMap Step.addedBlock?

/-- The kinds of the nodes, by position. -/
def createdNodes (steps : List Step) : List NodeKind := steps.filterMap Step.createdNode?

/-- The edges, in the order they were added. -/
def addedEdges (steps : List Step) : List Edge := steps.filterMap Step.addedEdge?

section Graph

variable (id : GraphId)

/-- The block has been added to the graph. -/
def HasBlock (steps : List Step) (b : BlockId) : Prop :=
  b.graph = id ∧ b.index < (blockKinds steps).length

/-- The node has been created in the graph. -/
def HasNode (steps : List Step) (n : NodeId) : Prop :=
  n.graph = id ∧ n.index < (createdNodes steps).length

instance (steps : List Step) (b : BlockId) : Decidable (HasBlock id steps b) :=
  inferInstanceAs (Decidable (_ ∧ _))

/-- Which node an operation puts where, given the operations before it. -/
def placement? (before : List Step) : Step → Option (BlockId × NodeId)
  | .append block node => some (block, node)
  | .push block _ => some (block, ⟨id, (createdNodes before).length⟩)
  | _ => none

/-- The block that an operation puts the node into. -/
def blockOf? (n : NodeId) (before : List Step) (step : Step) : Option BlockId :=
  ((placement? id before step).filter fun p => p.2 = n).map Prod.fst

/-- The node that an operation puts into the block, provided that the block exists. -/
def nodeFor? (b : BlockId) (before : List Step) (step : Step) : Option NodeId :=
  ((placement? id before step).filter fun p => p.1 = b ∧ HasBlock id before b).map Prod.snd

/-- The blocks that a node was put into, in order. -/
def placedIn (steps : List Step) (n : NodeId) : List BlockId :=
  (splits steps).filterMap fun t => blockOf? id n t.1 t.2.1

/-- The nodes that were put into a block once it existed, in order. -/
def listedBy (steps : List Step) (b : BlockId) : List NodeId :=
  (splits steps).filterMap fun t => nodeFor? id b t.1 t.2.1

/-- The block at a position, of the kind given there, before edges are entered. -/
def madeBlock (steps : List Step) (i : Nat) (kind : BlockKind) : Block :=
  { id := ⟨id, i⟩, kind, nodes := listedBy id steps ⟨id, i⟩ }

/-- The block at a position, of the kind given there, with the edges at it. -/
def joinedBlock (steps : List Step) (i : Nat) (kind : BlockKind) : Block :=
  { madeBlock id steps i kind with
    successors := (addedEdges steps).filter fun e => e.source = ⟨id, i⟩
    predecessors := (addedEdges steps).filter fun e => e.target = ⟨id, i⟩ }

/-- The kind of the node at a position, with the blocks that it was put into. -/
def madeNode (steps : List Step) (i : Nat) (kind : NodeKind) : NodeKind × List BlockId :=
  (kind, placedIn id steps ⟨id, i⟩)

/-- Operations name nodes only after they have been created. -/
def NamesCreated (steps : List Step) : Prop :=
  ∀ before step after n, steps = before ++ step :: after → step.namedNode? = some n →
    HasNode id before n

/-- What a sequence of operations has to keep for its draft to freeze. -/
structure Acceptable (steps : List Step) : Prop where
  named : NamesCreated id steps
  ends : ∀ e ∈ addedEdges steps, HasBlock id steps e.source ∧ HasBlock id steps e.target
  placed : ∀ n, HasNode id steps n → ∃ b, placedIn id steps n = [b] ∧ HasBlock id steps b
  operands : ∀ kind ∈ createdNodes steps, ∀ m ∈ kind.operands, HasNode id steps m
  form : ∀ i kind, (blockKinds steps)[i]? = some kind →
    Shape.HasForm kind (listedBy id steps ⟨id, i⟩).length
      (((addedEdges steps).filter fun e => e.source = ⟨id, i⟩).map Edge.label)

end Graph

theorem filterMap_splits_concat {β : Type} (rule : List Step → Step → Option β)
    (steps : List Step) (step : Step) :
    ((splits (steps ++ [step])).filterMap fun t => rule t.1 t.2.1) =
      ((splits steps).filterMap fun t => rule t.1 t.2.1) ++ (rule steps step).toList := by
  have hsplits : splits (steps ++ [step]) =
      (splits steps).map (fun t => (t.1, t.2.1, t.2.2 ++ [step])) ++ [(steps, step, [])] := by
    induction steps with
    | nil => rfl
    | cons first steps ih => simp [splits, ih, Function.comp_def]
  rw [hsplits, List.filterMap_append, List.filterMap_map]
  cases h : rule steps step <;> simp [h]

section Concat

variable {id : GraphId} {steps : List Step} {step : Step}

theorem placedIn_concat (n : NodeId) : placedIn id (steps ++ [step]) n =
    placedIn id steps n ++ (blockOf? id n steps step).toList :=
  filterMap_splits_concat (blockOf? id n) steps step

theorem listedBy_concat (b : BlockId) : listedBy id (steps ++ [step]) b =
    listedBy id steps b ++ (nodeFor? id b steps step).toList :=
  filterMap_splits_concat (nodeFor? id b) steps step

theorem madeNode_concat (i : Nat) : madeNode id (steps ++ [step]) i = fun kind =>
    (kind, placedIn id steps ⟨id, i⟩ ++ (blockOf? id ⟨id, i⟩ steps step).toList) := by
  funext kind
  rw [madeNode, placedIn_concat]

theorem blockKinds_concat :
    blockKinds (steps ++ [step]) = blockKinds steps ++ step.addedBlock?.toList := by
  cases h : step.addedBlock? <;> simp [blockKinds, h]

theorem createdNodes_concat :
    createdNodes (steps ++ [step]) = createdNodes steps ++ step.createdNode?.toList := by
  cases h : step.createdNode? <;> simp [createdNodes, h]

theorem addedEdges_concat :
    addedEdges (steps ++ [step]) = addedEdges steps ++ step.addedEdge?.toList := by
  cases h : step.addedEdge? <;> simp [addedEdges, h]

theorem HasBlock.concat {b : BlockId} (h : HasBlock id steps b) :
    HasBlock id (steps ++ [step]) b := by
  refine ⟨h.1, ?_⟩
  have := h.2
  rw [blockKinds_concat, List.length_append]
  omega

theorem HasNode.concat {n : NodeId} (h : HasNode id steps n) : HasNode id (steps ++ [step]) n := by
  refine ⟨h.1, ?_⟩
  have := h.2
  rw [createdNodes_concat, List.length_append]
  omega

/-- A block that has not been added lists nothing. -/
theorem listedBy_eq_nil {b : BlockId} (h : ¬ HasBlock id steps b) : listedBy id steps b = [] := by
  induction steps using List.reverseRecOn with
  | nil => rfl
  | append_singleton steps step ih =>
    have hbefore : ¬ HasBlock id steps b := fun hb => h hb.concat
    rw [listedBy_concat, ih hbefore]
    simp [nodeFor?, hbefore]

theorem namesCreated_concat : NamesCreated id (steps ++ [step]) ↔
    NamesCreated id steps ∧ ∀ n, step.namedNode? = some n → HasNode id steps n := by
  constructor
  · intro h
    refine ⟨?_, fun n hn => h steps step [] n rfl hn⟩
    rintro before earlier after n rfl hn
    exact h before earlier (after ++ [step]) n (by simp) hn
  · rintro ⟨hsteps, hstep⟩ before earlier after n heq hn
    rcases List.eq_nil_or_concat after with rfl | ⟨after, last, rfl⟩
    · obtain ⟨rfl, rfl⟩ := List.append_singleton_inj.mp heq
      exact hstep n hn
    · rw [List.concat_eq_append, ← List.cons_append, ← List.append_assoc] at heq
      obtain ⟨rfl, -⟩ := List.append_singleton_inj.mp heq
      exact hsteps before earlier after n rfl hn

end Concat

/-! ## Drafts and the operations behind them -/

/-- What a draft says of a node: its kind, and the blocks that it was put into. -/
def entry (p : DraftNode) : NodeKind × List BlockId := (p.kind, p.placements)

/-- The draft holds what the operations have put down, and none of them has named a node too early. -/
structure Records (d : Draft) (steps : List Step) : Prop where
  blocks : ∀ i, d.blocks[i]? = (blockKinds steps)[i]?.map (madeBlock d.graph steps i)
  nodes : ∀ i, d.nodes[i]?.map entry = (createdNodes steps)[i]?.map (madeNode d.graph steps i)
  edges : d.edges = addedEdges steps
  unknown : d.unknown = []
  /-- A node that is not there has been put nowhere. -/
  unplaced : ∀ n, ¬ HasNode d.graph steps n → placedIn d.graph steps n = []

theorem start_records (id : GraphId) (code : CodeUnit) : (start id code).Records [] where
  blocks i := by
    rcases i with _ | _ | _ | i <;> rfl
  nodes i := by simp [start, createdNodes]
  edges := rfl
  unknown := rfl
  unplaced _ _ := rfl

theorem holdsNode_nextNode (d : Draft) (kind : NodeKind) :
    (d.create kind).holdsNode d.nextNode = true := by
  simp [holdsNode, create, nextNode]

theorem graph_apply (d : Draft) (step : Step) : (d.apply step).graph = d.graph := by
  cases step with
  | append block node =>
    show (d.append block node).graph = d.graph
    unfold append
    split <;> rfl
  | push block kind =>
    show ((d.create kind).append block d.nextNode).graph = d.graph
    unfold append
    split <;> rfl
  | attachTree node tree =>
    show (d.attachTree node tree).graph = d.graph
    unfold attachTree
    split <;> rfl
  | _ => rfl

theorem edges_apply (d : Draft) (step : Step) :
    (d.apply step).edges = d.edges ++ step.addedEdge?.toList := by
  cases step with
  | addEdge source target label => rfl
  | append block node =>
    show (d.append block node).edges = d.edges ++ []
    unfold append
    split <;> simp
  | push block kind =>
    show ((d.create kind).append block d.nextNode).edges = d.edges ++ []
    unfold append
    split <;> simp [create]
  | attachTree node tree =>
    show (d.attachTree node tree).edges = d.edges ++ []
    unfold attachTree
    split <;> simp
  | _ => exact (List.append_nil _).symm

/-- An operation leaves no node unknown exactly if there was none and it names none that is not
there. -/
theorem unknown_apply_eq_nil_iff {d : Draft} {step : Step} : (d.apply step).unknown = [] ↔
    d.unknown = [] ∧ ∀ n, step.namedNode? = some n → d.holdsNode n = true := by
  cases step with
  | append block node =>
    show (d.append block node).unknown = [] ↔ _
    cases hheld : d.holdsNode node <;> simp [append, Step.namedNode?, hheld]
  | push block kind =>
    show ((d.create kind).append block d.nextNode).unknown = [] ↔ _
    rw [append, if_pos (d.holdsNode_nextNode kind)]
    simp [Step.namedNode?, create]
  | attachTree node tree =>
    show (d.attachTree node tree).unknown = [] ↔ _
    cases hheld : d.holdsNode node <;> simp [attachTree, Step.namedNode?, hheld]
  | _ => simp [Draft.apply, Step.namedNode?, addBlock, create, addEdge, markFinal]

namespace Records

variable {d : Draft} {steps : List Step} {step : Step} {b : BlockId} {n : NodeId}

theorem size_nodes (h : d.Records steps) : d.nodes.size = (createdNodes steps).length := by
  refine eq_of_forall_lt_iff fun i => ?_
  simpa using congrArg (fun o => o.isSome = true) (h.nodes i)

theorem size_blocks (h : d.Records steps) : d.blocks.size = (blockKinds steps).length := by
  refine eq_of_forall_lt_iff fun i => ?_
  simpa using congrArg (fun o => o.isSome = true) (h.blocks i)

theorem holdsNode_iff (h : d.Records steps) :
    d.holdsNode n = true ↔ HasNode d.graph steps n := by
  rw [Draft.holdsNode_iff, h.size_nodes, HasNode]

theorem holdsBlock_iff (h : d.Records steps) :
    d.holdsBlock b = true ↔ HasBlock d.graph steps b := by
  rw [Draft.holdsBlock_iff, h.size_blocks, HasBlock]

/-- A node that goes into a block is added to the list of the block. -/
theorem madeBlock_of_placement (h : d.Records steps)
    (hplaces : placement? d.graph steps step = some (b, n))
    (hkinds : step.addedBlock? = none) (i : Nat) :
    (blockKinds (steps ++ [step]))[i]?.map (madeBlock d.graph (steps ++ [step]) i) =
      if b = ⟨d.graph, i⟩ then
        d.blocks[i]?.map fun block => { block with nodes := block.nodes ++ [n] }
      else d.blocks[i]? := by
  rw [h.blocks, blockKinds_concat, hkinds, Option.toList_none, List.append_nil]
  cases hkind : (blockKinds steps)[i]? with
  | none => simp
  | some kind =>
    obtain ⟨hlt, -⟩ := List.getElem?_eq_some_iff.mp hkind
    have hblock : HasBlock d.graph steps ⟨d.graph, i⟩ := ⟨rfl, hlt⟩
    by_cases hb : b = ⟨d.graph, i⟩
    · simp [madeBlock, listedBy_concat, nodeFor?, hplaces, Option.filter, hb, hblock]
    · simp [madeBlock, listedBy_concat, nodeFor?, hplaces, Option.filter, hb]

/-- An operation that puts no node anywhere leaves the lists as they are. -/
theorem madeBlock_of_not_placement (hplaces : placement? d.graph steps step = none) (i : Nat) :
    madeBlock d.graph (steps ++ [step]) i = madeBlock d.graph steps i := by
  funext kind
  simp [madeBlock, listedBy_concat, nodeFor?, hplaces]

/-- The blocks after one more operation. -/
theorem blocks_apply (h : d.Records steps)
    (hnamed : ∀ n, step.namedNode? = some n → HasNode d.graph steps n) (i : Nat) :
    (d.apply step).blocks[i]? =
      (blockKinds (steps ++ [step]))[i]?.map (madeBlock d.graph (steps ++ [step]) i) := by
  have hkept : placement? d.graph steps step = none → step.addedBlock? = none →
      d.blocks[i]? =
        (blockKinds (steps ++ [step]))[i]?.map (madeBlock d.graph (steps ++ [step]) i) := by
    intro hplaces hkinds
    rw [madeBlock_of_not_placement hplaces, blockKinds_concat, hkinds, Option.toList_none,
      List.append_nil]
    exact h.blocks i
  cases step with
  | addBlock kind =>
    rw [madeBlock_of_not_placement rfl, blockKinds_concat]
    show (d.blocks.push _)[i]? = (blockKinds steps ++ [kind])[i]?.map _
    rw [Array.getElem?_push, h.blocks, h.size_blocks]
    rcases Nat.lt_trichotomy i (blockKinds steps).length with hlt | heq | hgt
    · rw [if_neg hlt.ne, List.getElem?_append_left hlt]
    · -- the new block lists nothing, since nothing is put into a list that is not there
      have hnone : listedBy d.graph steps ⟨d.graph, i⟩ = [] :=
        listedBy_eq_nil fun hblock => absurd hblock.2 (heq ▸ Nat.lt_irrefl _)
      rw [if_pos heq, heq, List.getElem?_concat_length, Option.map_some, madeBlock, ← heq, hnone,
        nextBlock, h.size_blocks, heq]
    · rw [if_neg hgt.ne', List.getElem?_eq_none hgt.le, List.getElem?_eq_none
        (by rw [List.length_append, List.length_singleton]; exact hgt)]
  | append block node =>
    have hheld := h.holdsNode_iff.mpr (hnamed node rfl)
    rw [h.madeBlock_of_placement rfl rfl]
    exact append_blocks hheld i
  | push block kind =>
    rw [h.madeBlock_of_placement rfl rfl, ← h.size_nodes]
    exact append_blocks (d.holdsNode_nextNode kind) i
  | attachTree node tree =>
    have hblocks : (d.attachTree node tree).blocks = d.blocks := by
      unfold attachTree
      split <;> rfl
    show (d.attachTree node tree).blocks[i]? = _
    rw [hblocks]
    exact hkept rfl rfl
  | create kind | addEdge source target label | markFinal var => exact hkept rfl rfl

/-- The nodes after one has been created. -/
theorem nodes_create (h : d.Records steps) (kind : NodeKind) (i : Nat) :
    (d.create kind).nodes[i]?.map entry = (createdNodes (steps ++ [.create kind]))[i]?.map
      (madeNode d.graph (steps ++ [.create kind]) i) := by
  have hmade : madeNode d.graph (steps ++ [.create kind]) i = madeNode d.graph steps i := by
    funext kind
    simp [madeNode, placedIn_concat, blockOf?, placement?]
  rw [hmade, createdNodes_concat]
  show (d.nodes.push _)[i]?.map entry = (createdNodes steps ++ [kind])[i]?.map _
  rw [Array.getElem?_push, h.size_nodes]
  rcases Nat.lt_trichotomy i (createdNodes steps).length with hlt | heq | hgt
  · rw [if_neg hlt.ne, List.getElem?_append_left hlt, h.nodes]
  · have hnone : placedIn d.graph steps ⟨d.graph, i⟩ = [] :=
      h.unplaced _ fun hnode => absurd hnode.2 (heq ▸ Nat.lt_irrefl _)
    rw [if_pos heq, heq, List.getElem?_concat_length, Option.map_some, Option.map_some, madeNode,
      ← heq, hnone]
    rfl
  · rw [if_neg hgt.ne', h.nodes, List.getElem?_eq_none hgt.le, List.getElem?_eq_none
      (by rw [List.length_append, List.length_singleton]; exact hgt)]

/-- The nodes after one has been put into a block. -/
theorem nodes_append
    (hnodes : ∀ i, d.nodes[i]?.map entry = (createdNodes steps)[i]?.map (madeNode d.graph steps i))
    (hheld : d.holdsNode n = true) (i : Nat) :
    (d.append b n).nodes[i]?.map entry = (createdNodes (steps ++ [.append b n]))[i]?.map
      (madeNode d.graph (steps ++ [.append b n]) i) := by
  have hi : n = ⟨d.graph, i⟩ ↔ n.index = i := by
    obtain ⟨graph, index⟩ := n
    obtain ⟨hgraph, -⟩ := Draft.holdsNode_iff.mp hheld
    simp [show graph = d.graph from hgraph]
  have hgrown := congrArg (Option.map fun e : NodeKind × List BlockId =>
    (e.1, e.2 ++ (blockOf? d.graph ⟨d.graph, i⟩ steps (.append b n)).toList)) (hnodes i)
  rw [Option.map_map, Option.map_map] at hgrown
  rw [madeNode_concat, createdNodes_concat, append_nodes hheld,
    show Step.createdNode? (.append b n) = none from rfl, Option.toList_none, List.append_nil]
  by_cases hindex : n.index = i
  · have hblock : blockOf? d.graph ⟨d.graph, i⟩ steps (.append b n) = some b := by
      simp [blockOf?, placement?, Option.filter, hi.mpr hindex]
    rw [hblock] at hgrown ⊢
    rw [if_pos hindex, Option.map_map]
    exact hgrown
  · have hblock : blockOf? d.graph ⟨d.graph, i⟩ steps (.append b n) = none := by
      simp [blockOf?, placement?, Option.filter, mt hi.mp hindex]
    rw [hblock, Option.toList_none] at hgrown ⊢
    simp only [List.append_nil] at hgrown ⊢
    rw [if_neg hindex]
    exact hgrown

/-- The nodes after one more operation. -/
theorem nodes_apply (h : d.Records steps)
    (hnamed : ∀ n, step.namedNode? = some n → HasNode d.graph steps n) (i : Nat) :
    (d.apply step).nodes[i]?.map entry =
      (createdNodes (steps ++ [step]))[i]?.map (madeNode d.graph (steps ++ [step]) i) := by
  have hkept : placement? d.graph steps step = none → step.createdNode? = none →
      d.nodes[i]?.map entry =
        (createdNodes (steps ++ [step]))[i]?.map (madeNode d.graph (steps ++ [step]) i) := by
    intro hplaces hkinds
    have hmade : madeNode d.graph (steps ++ [step]) i = madeNode d.graph steps i := by
      funext kind
      simp [madeNode, placedIn_concat, blockOf?, hplaces]
    rw [hmade, createdNodes_concat, hkinds, Option.toList_none, List.append_nil]
    exact h.nodes i
  cases step with
  | create kind => exact h.nodes_create kind i
  | append block node => exact nodes_append h.nodes (h.holdsNode_iff.mpr (hnamed node rfl)) i
  | push block kind =>
    -- to push a node is to create it and then to put it into the block
    have hnode : d.nextNode = ⟨d.graph, (createdNodes steps).length⟩ := by
      rw [nextNode, h.size_nodes]
    have hmade : madeNode d.graph (steps ++ [.push block kind]) i =
        madeNode d.graph (steps ++ [.create kind] ++ [.append block d.nextNode]) i := by
      funext kind
      simp only [madeNode, placedIn_concat, blockOf?, placement?, hnode]
      simp
    have hcreated : createdNodes (steps ++ [.push block kind]) =
        createdNodes (steps ++ [.create kind] ++ [.append block d.nextNode]) := by
      simp [createdNodes, Step.createdNode?]
    rw [hmade, hcreated]
    exact nodes_append (d := d.create kind) (h.nodes_create kind) (d.holdsNode_nextNode kind) i
  | attachTree node tree =>
    have hnodes : (d.attachTree node tree).nodes[i]?.map entry = d.nodes[i]?.map entry := by
      unfold attachTree
      split
      · show (d.nodes.modify _ _)[i]?.map entry = _
        rw [Array.getElem?_modify]
        split
        · rw [Option.map_map]
          congr 1
          funext p
          show entry (if tree ∈ p.trees then p else _) = entry p
          split <;> rfl
        · rfl
      · rfl
    exact hnodes.trans (hkept rfl rfl)
  | addBlock kind | addEdge source target label | markFinal var => exact hkept rfl rfl

/-- A node that is not there after one more operation has been put nowhere. -/
theorem unplaced_apply (h : d.Records steps)
    (hnamed : ∀ n, step.namedNode? = some n → HasNode d.graph steps n)
    (hn : ¬ HasNode d.graph (steps ++ [step]) n) : placedIn d.graph (steps ++ [step]) n = [] := by
  have hblock : blockOf? d.graph n steps step = none := by
    rw [blockOf?, Option.map_eq_none_iff, Option.filter_eq_none_iff]
    rintro ⟨b, m⟩ hplaces
    simp only [decide_eq_true_eq]
    rintro rfl
    cases step with
    | append block node =>
      obtain ⟨-, rfl⟩ := Prod.mk.inj (Option.some.inj hplaces)
      exact hn (hnamed node rfl).concat
    | push block kind =>
      obtain ⟨-, rfl⟩ := Prod.mk.inj (Option.some.inj hplaces)
      refine hn ⟨rfl, ?_⟩
      rw [createdNodes_concat, List.length_append]
      exact Nat.lt_succ_self _
    | _ => cases hplaces
  rw [placedIn_concat, hblock, h.unplaced n fun hbefore => hn hbefore.concat]
  rfl

/-- One more operation that names no node too early is recorded. -/
theorem apply (h : d.Records steps)
    (hnamed : ∀ n, step.namedNode? = some n → HasNode d.graph steps n) :
    (d.apply step).Records (steps ++ [step]) := by
  have hgraph := d.graph_apply step
  have hedges : (d.apply step).edges = d.edges ++ step.addedEdge?.toList := d.edges_apply step
  refine ⟨?_, ?_, ?_, ?_, ?_⟩
  · rw [hgraph]
    exact h.blocks_apply hnamed
  · rw [hgraph]
    exact h.nodes_apply hnamed
  · rw [hedges, h.edges, addedEdges_concat]
  · exact unknown_apply_eq_nil_iff.mpr
      ⟨h.unknown, fun n hn => h.holdsNode_iff.mpr (hnamed n hn)⟩
  · rw [hgraph]
    exact fun n hn => h.unplaced_apply hnamed hn

end Records

theorem graph_applyAll (d : Draft) (steps : List Step) : (d.applyAll steps).graph = d.graph := by
  induction steps using List.reverseRecOn with
  | nil => rfl
  | append_singleton steps step ih => rw [applyAll_concat, graph_apply, ih]

/-- No node is unknown exactly if operations name only nodes that have been created, and then the
draft holds what they have put down. -/
theorem records_applyAll (id : GraphId) (code : CodeUnit) (steps : List Step) :
    (((start id code).applyAll steps).unknown = [] ↔ NamesCreated id steps) ∧
      (NamesCreated id steps → ((start id code).applyAll steps).Records steps) := by
  induction steps using List.reverseRecOn with
  | nil =>
    refine ⟨iff_of_true rfl ?_, fun _ => start_records id code⟩
    rintro before step after n heq
    simp at heq
  | append_singleton steps step ih =>
    obtain ⟨hunknown, hrecords⟩ := ih
    have hgraph : ((start id code).applyAll steps).graph = id := graph_applyAll _ steps
    rw [applyAll_concat, unknown_apply_eq_nil_iff, namesCreated_concat, hunknown]
    constructor
    · refine and_congr_right fun hnamed => forall_congr' fun n => imp_congr_right fun _ => ?_
      rw [(hrecords hnamed).holdsNode_iff, hgraph]
    · rintro ⟨hnamed, hstep⟩
      exact (hrecords hnamed).apply fun n hn => hgraph.symm ▸ hstep n hn

/-! ## Freezing -/

/-- A traversal comes to its end exactly if every element lets it pass. -/
theorem exists_mapM_eq_ok_iff {α β ε : Type} {f : α → Except ε β} {xs : List α} :
    (∃ ys, xs.mapM f = .ok ys) ↔ ∀ x ∈ xs, ∃ y, f x = .ok y := by
  simp only [mapM_eq_ok_iff]
  induction xs with
  | nil => simp
  | cons x xs ih =>
    rw [List.forall_mem_cons, ← ih]
    constructor
    · rintro ⟨ys, hys⟩
      obtain ⟨y, ys, rfl, hy, hrest⟩ := List.map_eq_cons_iff.mp hys.symm
      exact ⟨⟨y, hy.symm⟩, ys, hrest.symm⟩
    · rintro ⟨⟨y, hy⟩, ys, hys⟩
      exact ⟨y :: ys, by simp [hy, hys]⟩

section Freezing

variable {d : Draft} {steps : List Step}

/-- The node under construction is in one block of the draft and has nodes of the draft for
operands. -/
def Fits (d : Draft) (p : DraftNode) : Prop :=
  ∃ b, p.placements = [b] ∧ d.holdsBlock b = true ∧ ∀ m ∈ p.kind.operands, d.holdsNode m = true

theorem exists_freezeNode_iff {p : DraftNode} {i : Nat} :
    (∃ node, d.freezeNode p i = .ok node) ↔ d.Fits p := by
  constructor
  · rintro ⟨node, h⟩
    obtain ⟨-, hplaced, hkind⟩ := freezeNode_eq_ok h
    obtain ⟨hblock, hoperands⟩ := held_of_freezeNode h
    exact ⟨node.block, hplaced, hblock, hkind ▸ hoperands⟩
  · rintro ⟨b, hplaced, hblock, hoperands⟩
    have hfind : (p.kind.operands.find? fun o => !d.holdsNode o) = none := by
      rw [List.find?_eq_none]
      intro m hm
      simp [hoperands m hm]
    simp [freezeNode, hplaced, hblock, hfind]

theorem exists_freezeNodes_iff :
    (∃ nodes, (d.nodes.toList.zipIdx.mapM fun (p, index) => d.freezeNode p index) = .ok nodes) ↔
      ∀ (i : Nat) (p : DraftNode), d.nodes[i]? = some p → d.Fits p := by
  simp only [exists_mapM_eq_ok_iff, exists_freezeNode_iff, List.mem_zipIdx_iff_getElem?,
    Prod.forall, Array.getElem?_toList]
  exact forall_comm

/-- What freezing looks at. -/
theorem exists_freeze_iff (hd : d.Consistent) : (∃ g, d.freeze = .ok g) ↔
    d.unknown = [] ∧ (∀ e ∈ d.edges, d.holdsBlock e.source = true ∧ d.holdsBlock e.target = true) ∧
      (∀ (i : Nat) (p : DraftNode), d.nodes[i]? = some p → d.Fits p) ∧
      ∀ block ∈ d.blocks, Shape.HasForm block.kind block.nodes.length
        ((d.edges.filter fun e => e.source = block.id).map Edge.label) := by
  rw [← exists_freezeNodes_iff]
  constructor
  · rintro ⟨g, h⟩
    obtain ⟨hunknown, hends, hfaults, nodes, hnodes, -⟩ := (freeze_eq_ok_iff hd).mp h
    exact ⟨hunknown, hends, ⟨nodes, mapM_eq_ok_iff.mpr hnodes⟩, fun block hblock =>
      (hd.blockFault?_eq_none_iff hblock).mp (hfaults block hblock)⟩
  · rintro ⟨hunknown, hends, ⟨nodes, hnodes⟩, hforms⟩
    exact ⟨d.frozen nodes, (freeze_eq_ok_iff hd).mpr ⟨hunknown, hends, fun block hblock =>
      (hd.blockFault?_eq_none_iff hblock).mpr (hforms block hblock), nodes,
        mapM_eq_ok_iff.mp hnodes, rfl⟩⟩

namespace Records

/-- A node of the draft is of the kind and in the blocks that the operations say. -/
theorem node_eq (h : d.Records steps) {i : Nat} {p : DraftNode} (hp : d.nodes[i]? = some p) :
    (createdNodes steps)[i]? = some p.kind ∧
      p.placements = placedIn d.graph steps ⟨d.graph, i⟩ := by
  have hnode := h.nodes i
  rw [hp, Option.map_some] at hnode
  obtain ⟨kind, hkind, heq⟩ := Option.map_eq_some_iff.mp hnode.symm
  obtain ⟨rfl, hplaced⟩ := Prod.mk.inj heq
  exact ⟨hkind, hplaced.symm⟩

theorem exists_node (h : d.Records steps) {i : Nat} {kind : NodeKind}
    (hkind : (createdNodes steps)[i]? = some kind) : ∃ p, d.nodes[i]? = some p ∧ p.kind = kind := by
  have hnode := h.nodes i
  rw [hkind, Option.map_some] at hnode
  obtain ⟨p, hp, heq⟩ := Option.map_eq_some_iff.mp hnode
  exact ⟨p, hp, congrArg Prod.fst heq⟩

/-- All nodes of the draft fit in exactly if the operations have put each node into one block and
created its operands. -/
theorem fits_iff (h : d.Records steps) :
    (∀ (i : Nat) (p : DraftNode), d.nodes[i]? = some p → d.Fits p) ↔
      (∀ n, HasNode d.graph steps n →
        ∃ b, placedIn d.graph steps n = [b] ∧ HasBlock d.graph steps b) ∧
      ∀ kind ∈ createdNodes steps, ∀ m ∈ kind.operands, HasNode d.graph steps m := by
  constructor
  · intro hfits
    constructor
    · rintro ⟨graph, i⟩ ⟨rfl, hi⟩
      obtain ⟨p, hp, -⟩ := h.exists_node (List.getElem?_eq_getElem hi)
      obtain ⟨b, hplaced, hblock, -⟩ := hfits i p hp
      exact ⟨b, (h.node_eq hp).2 ▸ hplaced, h.holdsBlock_iff.mp hblock⟩
    · intro kind hkind m hm
      obtain ⟨i, hi⟩ := List.mem_iff_getElem?.mp hkind
      obtain ⟨p, hp, rfl⟩ := h.exists_node hi
      obtain ⟨b, -, -, hoperands⟩ := hfits i p hp
      exact h.holdsNode_iff.mp (hoperands m hm)
  · rintro ⟨hplaced, hoperands⟩ i p hp
    obtain ⟨hkind, hblocks⟩ := h.node_eq hp
    obtain ⟨hi, -⟩ := List.getElem?_eq_some_iff.mp hkind
    obtain ⟨b, hb, hblock⟩ := hplaced ⟨d.graph, i⟩ ⟨rfl, hi⟩
    refine ⟨b, hblocks.trans hb, h.holdsBlock_iff.mpr hblock, fun m hm => ?_⟩
    exact h.holdsNode_iff.mpr (hoperands p.kind (List.mem_of_getElem? hkind) m hm)

/-- All blocks of the draft have their forms exactly if the operations say so. -/
theorem forms_iff (h : d.Records steps) :
    (∀ block ∈ d.blocks, Shape.HasForm block.kind block.nodes.length
        ((d.edges.filter fun e => e.source = block.id).map Edge.label)) ↔
      ∀ i kind, (blockKinds steps)[i]? = some kind →
        Shape.HasForm kind (listedBy d.graph steps ⟨d.graph, i⟩).length
          (((addedEdges steps).filter fun e => e.source = ⟨d.graph, i⟩).map Edge.label) := by
  rw [← h.edges]
  constructor
  · intro hforms i kind hkind
    have hblock : d.blocks[i]? = some (madeBlock d.graph steps i kind) := by
      rw [h.blocks, hkind, Option.map_some]
    exact hforms _ (Array.mem_of_getElem? hblock)
  · intro hforms block hblock
    obtain ⟨i, hi⟩ := Array.mem_iff_getElem?.mp hblock
    rw [h.blocks] at hi
    obtain ⟨kind, hkind, rfl⟩ := Option.map_eq_some_iff.mp hi
    exact hforms i kind hkind

/-- A draft freezes exactly if the operations behind it are acceptable. -/
theorem exists_freeze_iff (h : d.Records steps) (hd : d.Consistent)
    (hnamed : NamesCreated d.graph steps) :
    (∃ g, d.freeze = .ok g) ↔ Acceptable d.graph steps := by
  rw [Draft.exists_freeze_iff hd, h.fits_iff, h.forms_iff, h.edges]
  simp only [h.holdsBlock_iff]
  constructor
  · rintro ⟨-, hends, ⟨hplaced, hoperands⟩, hforms⟩
    exact ⟨hnamed, hends, hplaced, hoperands, hforms⟩
  · rintro ⟨-, hends, hplaced, hoperands, hforms⟩
    exact ⟨h.unknown, hends, ⟨hplaced, hoperands⟩, hforms⟩

end Records

end Freezing

end Draft

/-- The graph holds what the operations have put down: blocks with their lists, nodes in their blocks,
and every edge, in order, at both of its ends. -/
structure Graph.Realizes (g : Graph) (id : GraphId) (steps : List Draft.Step) : Prop where
  id_eq : g.id = id
  blocks : ∀ i, g.blocks[i]? = (Draft.blockKinds steps)[i]?.map (Draft.joinedBlock id steps i)
  nodes : ∀ i, g.nodes[i]?.map (fun node => (node.kind, [node.block])) =
    (Draft.createdNodes steps)[i]?.map (Draft.madeNode id steps i)
  successors : ∀ b, g.successors b = (Draft.addedEdges steps).filter fun e => e.source = b
  predecessors : ∀ b, g.predecessors b = (Draft.addedEdges steps).filter fun e => e.target = b

namespace Draft.Records

variable {d : Draft} {steps : List Step} (h : d.Records steps)

include h

/-- What the loop over the edges makes of the blocks. -/
theorem blocks_frozen (nodes : List Node) (i : Nat) : (d.frozen nodes).blocks[i]? =
    (blockKinds steps)[i]?.map (joinedBlock d.graph steps i) := by
  rw [frozen, Array.getElem?_map, h.blocks, h.edges, Option.map_map]
  rfl

/-- The edges at a block are those that were added there, also for what is no block. -/
theorem edgesAt_frozen {nodes : List Node}
    (hends : ∀ e ∈ d.edges, d.holdsBlock e.source = true ∧ d.holdsBlock e.target = true)
    (b : BlockId) :
    (d.frozen nodes).successors b = (addedEdges steps).filter (fun e => e.source = b) ∧
      (d.frozen nodes).predecessors b = (addedEdges steps).filter fun e => e.target = b := by
  cases hfound : (d.frozen nodes).block? b with
  | some block =>
    obtain ⟨graph, i⟩ := b
    obtain ⟨hgraph, hget⟩ := Graph.block?_eq_some_iff.mp hfound
    obtain rfl : graph = d.graph := hgraph
    rw [h.blocks_frozen] at hget
    obtain ⟨kind, -, rfl⟩ := Option.map_eq_some_iff.mp hget
    rw [Graph.successors, Graph.predecessors, hfound]
    exact ⟨rfl, rfl⟩
  | none =>
    -- no edge begins or ends outside the graph
    have hnot : ¬ d.holdsBlock b = true := by
      intro hheld
      have hsome := Graph.block?_isSome_of_holdsBlock (g := d.frozen nodes) rfl
        (by simp [frozen]) hheld
      rw [hfound] at hsome
      cases hsome
    rw [Graph.successors, Graph.predecessors, hfound, ← h.edges]
    constructor
    · refine (List.filter_eq_nil_iff.mpr fun e he => ?_).symm
      simpa using fun heq : e.source = b => hnot (heq ▸ (hends e he).1)
    · refine (List.filter_eq_nil_iff.mpr fun e he => ?_).symm
      simpa using fun heq : e.target = b => hnot (heq ▸ (hends e he).2)

theorem realizes (hd : d.Consistent) {g : Graph} (hg : d.freeze = .ok g) :
    g.Realizes d.graph steps := by
  obtain ⟨-, hends, -, nodes, hnodes, rfl⟩ := (freeze_eq_ok_iff hd).mp hg
  refine ⟨rfl, h.blocks_frozen nodes, fun i => ?_, fun b => (h.edgesAt_frozen hends b).1,
    fun b => (h.edgesAt_frozen hends b).2⟩
  rw [← h.nodes]
  have hfrozen := freeze_node hnodes i
  cases hp : d.nodes[i]? with
  | none =>
    rw [hp, Option.map_none] at hfrozen
    have hnone : nodes[i]? = none := Option.map_eq_none_iff.mp hfrozen.symm
    rw [frozen, List.getElem?_toArray, hnone]
    rfl
  | some p =>
    rw [hp, Option.map_some] at hfrozen
    obtain ⟨node, hnode, hok⟩ := Option.map_eq_some_iff.mp hfrozen.symm
    obtain ⟨-, hplaced, hkind⟩ := freezeNode_eq_ok hok.symm
    simp [frozen, hnode, entry, hplaced, hkind]

end Draft.Records

/-- A draft freezes exactly if its operations are acceptable, and the graph holds everything that
they have put down. -/
theorem drafts_freeze_exactly_if_acceptable (id : GraphId) (code : CodeUnit)
    (steps : List Draft.Step) :
    ((∃ g, ((Draft.start id code).applyAll steps).freeze = .ok g) ↔ Draft.Acceptable id steps) ∧
      ∀ g, ((Draft.start id code).applyAll steps).freeze = .ok g → g.Realizes id steps := by
  have hd := (Draft.start_consistent id code).applyAll steps
  obtain ⟨hunknown, hrecords⟩ := Draft.records_applyAll id code steps
  have hgraph : ((Draft.start id code).applyAll steps).graph = id := Draft.graph_applyAll _ steps
  have hnamed : ∀ g, ((Draft.start id code).applyAll steps).freeze = .ok g →
      Draft.NamesCreated id steps := fun g hg =>
    hunknown.mp ((Draft.exists_freeze_iff hd).mp ⟨g, hg⟩).1
  have hiff : Draft.NamesCreated id steps →
      ((∃ g, ((Draft.start id code).applyAll steps).freeze = .ok g) ↔
        Draft.Acceptable id steps) := fun h => by
    rw [(hrecords h).exists_freeze_iff hd (hgraph.symm ▸ h), hgraph]
  refine ⟨⟨?_, fun h => (hiff h.named).mpr h⟩, fun g hg => ?_⟩
  · rintro ⟨g, hg⟩
    exact (hiff (hnamed g hg)).mp ⟨g, hg⟩
  · have hrealizes := (hrecords (hnamed g hg)).realizes hd hg
    rwa [hgraph] at hrealizes

/-! ## A branch that was entered too early -/

/-- Block 3 branches and may list one node only. Two nodes are put into it, one of them before it
exists. The node of block 4 is created first and put there later. -/
def crowdedBranchSteps : List Draft.Step :=
  [.push ⟨0, 3⟩ (.literal (.integer 1)), .addBlock .conditional, .push ⟨0, 3⟩ (.localRead ⟨"x"⟩),
    .create (.call (some ⟨0, 1⟩) "f" [⟨0, 0⟩]), .addBlock .exceptional, .append ⟨0, 4⟩ ⟨0, 2⟩,
    .addEdge ⟨0, 0⟩ ⟨0, 3⟩ .unconditional, .addEdge ⟨0, 3⟩ ⟨0, 4⟩ .onTrue,
    .addEdge ⟨0, 3⟩ ⟨0, 1⟩ .onFalse, .addEdge ⟨0, 4⟩ ⟨0, 2⟩ (.exception ⟨"E"⟩),
    .addEdge ⟨0, 4⟩ ⟨0, 1⟩ .unconditional]

/-- The operations are acceptable as they stand. They are not with a second edge for an exception, and
not with a third node in block 3. -/
theorem crowdedBranch_freezes_exactly_if_acceptable :
    (∃ g, ((Draft.start 0 (.loose "")).applyAll crowdedBranchSteps).freeze = .ok g ∧
      Draft.Acceptable 0 crowdedBranchSteps ∧ g.Realizes 0 crowdedBranchSteps) ∧
      ¬ Draft.Acceptable 0
        (crowdedBranchSteps ++ [.addEdge ⟨0, 4⟩ ⟨0, 0⟩ (.exception ⟨"E"⟩)]) ∧
      ¬ Draft.Acceptable 0 (crowdedBranchSteps ++ [.push ⟨0, 3⟩ (.literal .null)]) := by
  have hrefused : ∀ steps,
      ((Draft.start 0 (.loose "")).applyAll steps).freeze.toOption.isSome = false →
        ¬ Draft.Acceptable 0 steps := by
    intro steps hnone hacceptable
    obtain ⟨g, hg⟩ := (drafts_freeze_exactly_if_acceptable 0 (.loose "") steps).1.mpr hacceptable
    rw [hg] at hnone
    cases hnone
  obtain ⟨g, hg⟩ := exists_eq_ok
    (x := ((Draft.start 0 (.loose "")).applyAll crowdedBranchSteps).freeze) (by decide +kernel)
  obtain ⟨haccepts, hrealizes⟩ :=
    drafts_freeze_exactly_if_acceptable 0 (.loose "") crowdedBranchSteps
  exact ⟨⟨g, hg, haccepts.mp ⟨g, hg⟩, hrealizes g hg⟩, hrefused _ (by decide +kernel),
    hrefused _ (by decide +kernel)⟩

end FlowFixpoint
