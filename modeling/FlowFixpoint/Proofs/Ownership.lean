/-
# FlowFixpoint.Proofs.Ownership — which nodes the blocks of a built graph list.

Where a node stands is kept twice: the node remembers every block it was put into, and each block
lists its nodes. Freezing looks at the first record, with the blocks that exist by then; the second
is written by the operation itself, with the blocks that exist at that moment. The two agree except
in one case. A node that is put into a block before the block is added names that block ever after,
and the block never lists it.

`Lists` is what a draft's blocks show and `PlacedInTime` what a sequence of operations has done; one
step lemma joins them. In a built graph a node is listed exactly once by the block it names if it was
placed in time, and nowhere otherwise. `lateBlock` is a graph with a node that no block lists.
-/
import FlowFixpoint.Proofs.GraphViews
import Mathlib.Data.List.Induction

namespace FlowFixpoint

/-! ## What a draft lists -/

namespace Draft

/-- The block of the draft lists the node. -/
def Lists (d : Draft) (b : BlockId) (n : NodeId) : Prop :=
  b.graph = d.graph ∧ ∃ block, d.blocks[b.index]? = some block ∧ n ∈ block.nodes

/-- The operation puts the node at the end of the block, be there such a block or not. -/
def Places (d : Draft) (b : BlockId) (n : NodeId) : Step → Prop
  | .append block node => block = b ∧ node = n ∧ d.holdsNode n = true
  | .push block _ => block = b ∧ d.nextNode = n
  | _ => False

/-- One of the operations puts the node into the block at a time when the block exists. -/
def PlacedInTime (d : Draft) (steps : List Step) (b : BlockId) (n : NodeId) : Prop :=
  ∃ before step after, steps = before ++ step :: after ∧
    (d.applyAll before).Places b n step ∧ (d.applyAll before).holdsBlock b = true

variable {d : Draft} {b c : BlockId} {n m : NodeId}

theorem not_lists_start (id : GraphId) (code : CodeUnit) (b : BlockId) (n : NodeId) :
    ¬ (start id code).Lists b n := by
  rintro ⟨-, block, hblock, hn⟩
  have hnone := (start_consistent id code).listed_held _ _ hblock n hn
  simp [holdsNode, start] at hnone

theorem lists_addBlock (kind : BlockKind) : (d.addBlock kind).Lists b n ↔ d.Lists b n := by
  refine and_congr_right fun _ => ⟨?_, ?_⟩
  · rintro ⟨block, hblock, hn⟩
    rcases getElem?_push_cases hblock with hold | ⟨-, rfl⟩
    · exact ⟨block, hold, hn⟩
    · simp at hn
  · rintro ⟨block, hblock, hn⟩
    obtain ⟨hlt, -⟩ := Array.getElem?_eq_some_iff.mp hblock
    exact ⟨block, by rw [addBlock, Array.getElem?_push_lt hlt, ← hblock]; simp [hlt], hn⟩

/-- Only a block that exists takes a node into its list. -/
theorem lists_append (hm : d.holdsNode m = true) :
    (d.append c m).Lists b n ↔ d.Lists b n ∨ (c = b ∧ m = n) ∧ d.holdsBlock b = true := by
  have hgraph : (d.append c m).graph = d.graph := by simp [append, hm]
  rw [holdsBlock_iff]
  unfold Lists
  rw [hgraph, append_blocks hm]
  by_cases hb : b.graph = d.graph
  · have hid : c = ⟨d.graph, b.index⟩ ↔ c = b := by rw [← hb]
    simp only [hid, hb, true_and]
    by_cases hcb : c = b
    · cases hblock : d.blocks[b.index]? with
      | none => simp [hcb, Array.getElem?_eq_none_iff.mp hblock]
      | some block =>
        obtain ⟨hlt, -⟩ := Array.getElem?_eq_some_iff.mp hblock
        simp [hcb, hlt, eq_comm]
    · simp [hcb]
  · simp [hb]

/-- What one operation adds to the lists. -/
theorem lists_apply (step : Step) : (d.apply step).Lists b n ↔
    d.Lists b n ∨ d.Places b n step ∧ d.holdsBlock b = true := by
  cases step with
  | addBlock kind => simpa [apply, Places] using lists_addBlock kind
  | append block node =>
    cases hheld : d.holdsNode node with
    | true =>
      rw [apply, lists_append hheld]
      simp only [Places]
      refine or_congr_right (and_congr_left fun _ => and_congr_right fun _ => ?_)
      constructor
      · rintro rfl
        exact ⟨rfl, hheld⟩
      · exact fun h => h.1
    | false =>
      -- an unknown node is only noted down
      have hnot : ¬ d.Places b n (.append block node) := by
        rintro ⟨-, rfl, hheld'⟩
        simp [hheld] at hheld'
      simp only [hnot, false_and, or_false]
      simp [apply, append, hheld, Lists]
  | push block kind =>
    have hheld : (d.create kind).holdsNode d.nextNode = true := by
      simp [holdsNode, create, nextNode]
    exact lists_append hheld
  | attachTree node tree =>
    simp only [apply, attachTree, Places, false_and, or_false]
    split <;> rfl
  | create kind | addEdge source target label | markFinal var => simp [apply, Places]; rfl

theorem applyAll_concat (d : Draft) (steps : List Step) (step : Step) :
    d.applyAll (steps ++ [step]) = (d.applyAll steps).apply step := by
  simp [applyAll]

/-- What a sequence of operations adds to the lists. -/
theorem lists_applyAll (steps : List Step) :
    (d.applyAll steps).Lists b n ↔ d.Lists b n ∨ d.PlacedInTime steps b n := by
  induction steps using List.reverseRecOn with
  | nil => simp [applyAll, PlacedInTime]
  | append_singleton steps last ih =>
    rw [applyAll_concat, lists_apply, ih, or_assoc]
    refine or_congr_right ⟨?_, ?_⟩
    · rintro (⟨before, step, after, rfl, hplaces, hheld⟩ | ⟨hplaces, hheld⟩)
      · exact ⟨before, step, after ++ [last], by simp, hplaces, hheld⟩
      · exact ⟨steps, last, [], rfl, hplaces, hheld⟩
    · rintro ⟨before, step, after, heq, hplaces, hheld⟩
      rcases List.eq_nil_or_concat after with rfl | ⟨after, step', rfl⟩
      · obtain ⟨rfl, rfl⟩ : steps = before ∧ last = step := by simpa using heq
        exact .inr ⟨hplaces, hheld⟩
      · obtain ⟨rfl, -⟩ : steps = before ++ step :: after ∧ last = step' := by
          rw [List.concat_eq_append, ← List.cons_append, ← List.append_assoc] at heq
          simpa using List.append_inj' heq rfl
        exact .inl ⟨before, step, after, rfl, hplaces, hheld⟩

end Draft

/-! ## Freezing -/

namespace Draft

variable {d : Draft}

/-- A node freezes only with a block and operands that exist. -/
theorem held_of_freezeNode {p : DraftNode} {i : Nat} {node : Node}
    (h : d.freezeNode p i = .ok node) :
    d.holdsBlock node.block = true ∧ ∀ m ∈ node.kind.operands, d.holdsNode m = true := by
  obtain ⟨-, hplacements, hkind⟩ := freezeNode_eq_ok h
  simp only [freezeNode, hplacements] at h
  split at h
  · next hheld =>
    split at h
    · cases h
    · next hnone =>
      refine ⟨hheld, fun m hm => ?_⟩
      rw [hkind] at hm
      simpa using List.find?_eq_none.mp hnone m hm
  · cases h

end Draft

namespace Graph

/-- Blocks list their nodes: a node with the property stands exactly once in the list of the block it
names, any other node in no list at all; whatever is listed is a node of the graph, and so is every
operand. -/
structure ListsNodes (g : Graph) (P : Node → Prop) : Prop where
  once : ∀ node ∈ g.nodes, P node →
    ∃ block, g.block? node.block = some block ∧ block.nodes.count node.id = 1
  missed : ∀ node ∈ g.nodes, ¬ P node → ∀ block ∈ g.blocks, node.id ∉ block.nodes
  nowhere_else : ∀ node ∈ g.nodes, ∀ block ∈ g.blocks, node.id ∈ block.nodes →
    block.id = node.block
  named : ∀ node ∈ g.nodes, (g.block? node.block).isSome
  listed : ∀ block ∈ g.blocks, ∀ n ∈ block.nodes, (g.node? n).isSome
  operands : ∀ node ∈ g.nodes, ∀ m ∈ node.kind.operands, (g.node? m).isSome

variable {g : Graph}

/-- Where blocks list the nodes with a property, they list all nodes exactly if all have it. -/
theorem ListsNodes.forall_iff {P : Node → Prop} (h : g.ListsNodes P) :
    g.ListsNodes (fun _ => True) ↔ ∀ node ∈ g.nodes, P node := by
  constructor
  · intro hall node hnode
    by_contra hP
    obtain ⟨block, hblock, hcount⟩ := hall.once node hnode trivial
    have hmem : block ∈ g.blocks := Array.mem_of_getElem? (block?_eq_some_iff.mp hblock).2
    exact h.missed node hnode hP block hmem (List.count_pos_iff.mp (by omega))
  · intro hall
    exact ⟨fun node hnode _ => h.once node hnode (hall node hnode),
      fun _ _ hfalse => absurd trivial hfalse, h.nowhere_else, h.named, h.listed, h.operands⟩

namespace WellFormed

variable (hg : g.WellFormed)

include hg

/-- Whatever lists a node is the block that the node names. -/
theorem id_of_listed {node : Node} (hnode : node ∈ g.nodes) {block : Block}
    (hblock : block ∈ g.blocks) (hn : node.id ∈ block.nodes) : block.id = node.block := by
  obtain ⟨node', hnode', hid⟩ := hg.exists_node_of_listed (hg.mem_blocks_iff.mp hblock) hn
  obtain rfl : node = node' := by simpa [hg.mem_nodes_iff.mp hnode] using hnode'
  exact hid.symm

theorem count_of_listed {b : BlockId} {block : Block} (hblock : g.block? b = some block)
    {n : NodeId} (hn : n ∈ block.nodes) : block.nodes.count n = 1 :=
  List.count_eq_one_of_mem (hg.listed_once _ _ (block?_eq_some_iff.mp hblock).2) hn

end WellFormed

/-- A built graph lists the nodes that its draft lists. -/
theorem listsNodes_of_freeze {d : Draft} (hd : d.Consistent) (h : d.freeze = .ok g) :
    g.ListsNodes fun node => d.Lists node.block node.id := by
  have hg := wellFormed_of_freeze hd h
  obtain ⟨-, -, -, nodes, hnodes, rfl⟩ := (Draft.freeze_eq_ok_iff hd).mp h
  have hsize : (d.frozen nodes).nodes.size = d.nodes.size := by
    simpa [Draft.frozen] using (congrArg List.length hnodes).symm
  have hfrozen : ∀ node ∈ (d.frozen nodes).nodes, d.holdsBlock node.block = true ∧
      ∀ m ∈ node.kind.operands, d.holdsNode m = true := by
    intro node hnode
    obtain ⟨i, hi⟩ := Array.mem_iff_getElem?.mp hnode
    have hfreeze := Draft.freeze_node hnodes i
    rw [show nodes[i]? = some node by simpa [Draft.frozen] using hi] at hfreeze
    obtain ⟨p, -, hok⟩ := Option.map_eq_some_iff.mp hfreeze
    exact Draft.held_of_freezeNode hok
  -- entering edges changes no list of nodes
  have hblocks : ∀ i : Nat, (d.frozen nodes).blocks[i]? =
      d.blocks[i]?.map fun block => block.withEdges d.edges := fun i => Array.getElem?_map ..
  refine ⟨?_, ?_, fun node hnode block hblock => hg.id_of_listed hnode hblock, ?_, ?_, ?_⟩
  · rintro node - ⟨hb, block, hblock, hn⟩
    have hfound : (d.frozen nodes).block? node.block = some (block.withEdges d.edges) :=
      block?_eq_some_iff.mpr ⟨hb, by rw [hblocks, hblock, Option.map_some]⟩
    exact ⟨_, hfound, hg.count_of_listed hfound hn⟩
  · intro node hnode hnot block hblock hn
    -- a listed node is listed by the block it names, in the draft as in the graph
    have hfound := hg.mem_blocks_iff.mp hblock
    rw [hg.id_of_listed hnode hblock hn] at hfound
    obtain ⟨hb, hget⟩ := block?_eq_some_iff.mp hfound
    rw [hblocks] at hget
    obtain ⟨old, hold, rfl⟩ := Option.map_eq_some_iff.mp hget
    exact hnot ⟨hb, old, hold, hn⟩
  · intro node hnode
    exact block?_isSome_of_holdsBlock rfl (by simp [Draft.frozen]) (hfrozen node hnode).1
  · intro block hblock n hn
    obtain ⟨node, hnode, -⟩ := hg.exists_node_of_listed (hg.mem_blocks_iff.mp hblock) hn
    simp [hnode]
  · intro node hnode m hm
    obtain ⟨hm, hlt⟩ := Draft.holdsNode_iff.mp ((hfrozen node hnode).2 m hm)
    have hid : m.graph = (d.frozen nodes).id := hm
    simp [node?, hid, hsize, hlt]

theorem Built.exists_listsNodes (hg : g.Built) : ∃ P, g.ListsNodes P := by
  obtain ⟨id, code, steps, hfreeze⟩ := hg
  exact ⟨_, listsNodes_of_freeze ((Draft.start_consistent id code).applyAll steps) hfreeze⟩

/-- The block that a node names exists, whether it lists the node or not. -/
theorem Built.exists_block_of_node (hg : g.Built) {n : NodeId} {node : Node}
    (h : g.node? n = some node) : ∃ block, g.block? node.block = some block := by
  obtain ⟨P, hlists⟩ := hg.exists_listsNodes
  exact Option.isSome_iff_exists.mp
    (hlists.named node (Array.mem_of_getElem? (node?_eq_some_iff.mp h).2))

end Graph

/-- The blocks of a built graph list each node that was put into its block when the block existed,
exactly once and by that block only, and no other node. So every node is owned by one block exactly
when all nodes were placed in time. -/
theorem built_graph_lists_nodes_placed_in_time (id : GraphId) (code : CodeUnit)
    (steps : List Draft.Step) (g : Graph)
    (h : ((Draft.start id code).applyAll steps).freeze = .ok g) :
    g.ListsNodes (fun node => (Draft.start id code).PlacedInTime steps node.block node.id) ∧
      (g.ListsNodes (fun _ => True) ↔
        ∀ node ∈ g.nodes, (Draft.start id code).PlacedInTime steps node.block node.id) := by
  have hlists : ∀ b n, ((Draft.start id code).applyAll steps).Lists b n ↔
      (Draft.start id code).PlacedInTime steps b n := by
    intro b n
    rw [Draft.lists_applyAll, or_iff_right (Draft.not_lists_start id code b n)]
  have hfrozen := Graph.listsNodes_of_freeze ((Draft.start_consistent id code).applyAll steps) h
  simp only [hlists] at hfrozen
  exact ⟨hfrozen, hfrozen.forall_iff⟩

/-! ## A block added too late -/

/-- A literal is pushed into block 3, and then block 3 is added. -/
def lateBlockSteps : List Draft.Step :=
  [.push ⟨0, 3⟩ (.literal (.integer 1)), .addBlock .regular,
    .addEdge ⟨0, 0⟩ ⟨0, 3⟩ .unconditional, .addEdge ⟨0, 3⟩ ⟨0, 1⟩ .unconditional,
    .push ⟨0, 3⟩ (.minus ⟨0, 0⟩)]

/-- The graph that the late block ends up in. -/
def lateBlock : Graph := .ofSteps (.loose "") lateBlockSteps

theorem lateBlock_freeze :
    ((Draft.start 0 (.loose "")).applyAll lateBlockSteps).freeze = .ok lateBlock := by
  obtain ⟨g, hg⟩ := exists_eq_ok
    (x := ((Draft.start 0 (.loose "")).applyAll lateBlockSteps).freeze) (by decide +kernel)
  rw [lateBlock, Graph.ofSteps, hg]

/-- The guarantee at the graph with the late block, where it covers the second node only. -/
theorem lateBlock_lists_nodes_placed_in_time :
    ((Draft.start 0 (.loose "")).applyAll lateBlockSteps).freeze = .ok lateBlock ∧
      lateBlock.ListsNodes (fun node =>
        (Draft.start 0 (.loose "")).PlacedInTime lateBlockSteps node.block node.id) ∧
      (Draft.start 0 (.loose "")).PlacedInTime lateBlockSteps ⟨0, 3⟩ ⟨0, 1⟩ :=
  ⟨lateBlock_freeze,
    (built_graph_lists_nodes_placed_in_time 0 (.loose "") lateBlockSteps lateBlock
      lateBlock_freeze).1,
    lateBlockSteps.take 4, .push ⟨0, 3⟩ (.minus ⟨0, 0⟩), [], rfl, ⟨rfl, by decide +kernel⟩,
    by decide +kernel⟩

/-- Node 0 names block 3, which does not list it. -/
theorem lateBlock_not_lists_every_node :
    ((Draft.start 0 (.loose "")).applyAll lateBlockSteps).freeze = .ok lateBlock ∧
      ¬ lateBlock.ListsNodes fun _ => True := by
  refine ⟨lateBlock_freeze, fun hall => ?_⟩
  have hunlisted : ∃ node ∈ lateBlock.nodes, node.block = ⟨0, 3⟩ ∧
      (lateBlock.block? ⟨0, 3⟩).map (fun block => block.nodes.count node.id) = some 0 := by
    decide +kernel
  obtain ⟨node, hnode, hblock, hcount⟩ := hunlisted
  obtain ⟨block, hfound, honce⟩ := hall.once node hnode trivial
  rw [← hblock, hfound, Option.map_some, honce] at hcount
  simp at hcount

end FlowFixpoint
