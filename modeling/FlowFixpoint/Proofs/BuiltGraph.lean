/-
# FlowFixpoint.Proofs.BuiltGraph — what freezing a draft guarantees.

A built graph is one that some sequence of operations on a fresh draft freezes into. The operations
come in any order and with any identifiers, so the facts that the engine relies on are collected
here once: identifiers are positions, the ends of edges and the nodes that blocks list exist, a node
is listed at most once and only by the block it was placed in, an edge is entered at both its ends,
and every block has the form of its kind. `Draft.Consistent` is what each operation keeps,
`Graph.WellFormed` what is left after freezing.

Freezing enters the edges one after the other. What the whole loop makes of a block is `withEdges`;
one edge is the step, and the loop follows by induction over the edges.

A node that was placed in a block before the block existed is not listed by it; nothing here says
that every node is listed.
-/
import FlowFixpoint.Graph.Draft
import FlowFixpoint.Proofs.BlockForms
import Mathlib.Data.List.Nodup
import Mathlib.Tactic.Common

namespace FlowFixpoint

/-- Some sequence of operations on a fresh draft freezes into the graph. -/
def Graph.Built (g : Graph) : Prop :=
  ∃ id code steps, ((Draft.start id code).applyAll steps).freeze = .ok g

/-- A traversal succeeds exactly when every element does. -/
theorem mapM_eq_ok_iff {α β ε : Type} {f : α → Except ε β} {xs : List α} {ys : List β} :
    xs.mapM f = .ok ys ↔ xs.map f = ys.map .ok := by
  induction xs generalizing ys with
  | nil =>
    rw [List.mapM_nil]
    cases ys <;> simp [pure, Except.pure]
  | cons x xs ih =>
    rw [List.mapM_cons]
    cases hx : f x with
    | error e => cases ys <;> simp [bind, Except.bind, hx]
    | ok y =>
      cases ys with
      | nil => cases xs.mapM f <;> simp [bind, Except.bind, pure, Except.pure]
      | cons z zs =>
        simp only [List.map_cons, hx, List.cons.injEq, Except.ok.injEq, ← ih]
        cases xs.mapM f <;> simp [bind, Except.bind, pure, Except.pure]

/-- Sorting a list by keys loses nothing and doubles nothing. -/
theorem flatMap_filter_perm {α β : Type} [DecidableEq β] (key : α → β) {keys : List β}
    (hnodup : keys.Nodup) {xs : List α} (hkeys : ∀ x ∈ xs, key x ∈ keys) :
    (keys.flatMap fun k => xs.filter fun x => key x = k).Perm xs := by
  induction keys generalizing xs with
  | nil =>
    have hnil : xs = [] := List.eq_nil_iff_forall_not_mem.mpr fun x hx => by cases hkeys x hx
    rw [hnil]
    exact .nil
  | cons k keys ih =>
    obtain ⟨hk, hnodup⟩ := List.nodup_cons.mp hnodup
    -- the other keys sort what is left
    have hrest : (keys.flatMap fun j => xs.filter fun x => key x = j) =
        keys.flatMap fun j => (xs.filter fun x => !decide (key x = k)).filter fun x => key x = j := by
      refine List.flatMap_congr fun j hj => ?_
      rw [List.filter_filter]
      refine List.filter_congr fun x _ => ?_
      by_cases hx : key x = j
      · have hne : j ≠ k := fun heq => hk (heq ▸ hj)
        simp [hx, hne]
      · simp [hx]
    rw [List.flatMap_cons, hrest]
    refine ((ih hnodup ?_).append_left _).trans (List.filter_append_perm _ xs)
    intro x hx
    have hmem := hkeys x (List.mem_of_mem_filter hx)
    have hne : key x ≠ k := by simpa using (List.mem_filter.mp hx).2
    exact (List.mem_cons.mp hmem).resolve_left hne

/-- Blocks that have their positions for identifiers, by position. -/
theorem blockIds_eq {graph : GraphId} {blocks : Array Block}
    (hid : ∀ (i : Nat) (block : Block), blocks[i]? = some block → block.id = ⟨graph, i⟩) :
    blocks.toList.map Block.id = (List.range blocks.size).map fun i => ⟨graph, i⟩ := by
  refine List.ext_getElem (by simp) fun i hi _ => ?_
  have hlt : i < blocks.size := by simpa using hi
  simpa using hid i blocks[i] (Array.getElem?_eq_getElem hlt)

theorem pairwise_blockIds {graph : GraphId} {blocks : Array Block}
    (hid : ∀ (i : Nat) (block : Block), blocks[i]? = some block → block.id = ⟨graph, i⟩) :
    (blocks.toList.map Block.id).Pairwise fun b c => b.index < c.index := by
  rw [blockIds_eq hid, List.pairwise_map]
  exact List.pairwise_lt_range

theorem nodup_blockIds {graph : GraphId} {blocks : Array Block}
    (hid : ∀ (i : Nat) (block : Block), blocks[i]? = some block → block.id = ⟨graph, i⟩) :
    (blocks.toList.map Block.id).Nodup := by
  refine (pairwise_blockIds hid).imp ?_
  rintro b c hlt rfl
  exact Nat.lt_irrefl _ hlt

/-- A block with those edges of a list that begin or end at it, after the ones that it has. -/
def Block.withEdges (block : Block) (es : List Edge) : Block :=
  { block with
    successors := block.successors ++ es.filter fun e => e.source = block.id
    predecessors := block.predecessors ++ es.filter fun e => e.target = block.id }

theorem Block.withEdges_withEdges (block : Block) (es fs : List Edge) :
    (block.withEdges es).withEdges fs = block.withEdges (es ++ fs) := by
  simp only [withEdges, List.filter_append, List.append_assoc]
  rfl

/-! ## Operations on drafts -/

namespace Draft

/-- What every operation on a draft keeps. -/
structure Consistent (d : Draft) : Prop where
  block_id : ∀ (i : Nat) (block : Block), d.blocks[i]? = some block → block.id = ⟨d.graph, i⟩
  entry_kind : d.blocks[0]?.map Block.kind = some (.special .entry)
  exit_kind : d.blocks[1]?.map Block.kind = some (.special .exit)
  exceptionalExit_kind : d.blocks[2]?.map Block.kind = some (.special .exceptionalExit)
  /-- A block lists only nodes that exist. -/
  listed_held : ∀ (i : Nat) (block : Block), d.blocks[i]? = some block →
    ∀ n ∈ block.nodes, d.holdsNode n = true
  /-- A block lists a node at most as often as the node was placed there. -/
  listed_count : ∀ (i : Nat) (block : Block), d.blocks[i]? = some block →
    ∀ (n : NodeId) (p : DraftNode), n.graph = d.graph → d.nodes[n.index]? = some p →
       block.nodes.count n ≤ p.placements.count block.id
  /-- No edge is entered before freezing. -/
  unlinked : ∀ (i : Nat) (block : Block), d.blocks[i]? = some block →
    block.successors = [] ∧ block.predecessors = []

theorem start_consistent (graph : GraphId) (code : CodeUnit) : (start graph code).Consistent where
  block_id i block h := by
    rcases i with _ | _ | _ | i <;> simp_all [start] <;> rw [← h]
  entry_kind := rfl
  exit_kind := rfl
  exceptionalExit_kind := rfl
  listed_held i block h n hn := by
    rcases i with _ | _ | _ | i <;> simp_all [start] <;> simp [← h] at hn
  listed_count i block h n p _ hp := by simp [start] at hp
  unlinked i block h := by
    rcases i with _ | _ | _ | i <;> simp_all [start] <;> simp [← h]

theorem holdsNode_iff {d : Draft} {n : NodeId} :
    d.holdsNode n = true ↔ n.graph = d.graph ∧ n.index < d.nodes.size := by
  simp [holdsNode]

theorem holdsBlock_iff {d : Draft} {b : BlockId} :
    d.holdsBlock b = true ↔ b.graph = d.graph ∧ b.index < d.blocks.size := by
  simp [holdsBlock]

variable {d : Draft}

/-- The position of a look-up in a list that has grown by one. -/
theorem getElem?_push_cases {α : Type} {xs : Array α} {x y : α} {i : Nat}
    (h : (xs.push x)[i]? = some y) : xs[i]? = some y ∨ i = xs.size ∧ y = x := by
  rw [Array.getElem?_push] at h
  split at h
  · next hi => exact .inr ⟨hi, by simpa using h.symm⟩
  · exact .inl h

theorem Consistent.addBlock (h : d.Consistent) (kind : BlockKind) :
    (d.addBlock kind).Consistent := by
  have hkeep : ∀ {i : Nat} {k : BlockKind}, d.blocks[i]?.map Block.kind = some k →
      (d.addBlock kind).blocks[i]?.map Block.kind = some k := by
    intro i k hk
    obtain ⟨block, hblock, rfl⟩ := Option.map_eq_some_iff.mp hk
    obtain ⟨hi, hget⟩ := Array.getElem?_eq_some_iff.mp hblock
    simp [Draft.addBlock, Array.getElem?_push_lt hi, hget]
  refine ⟨?_, hkeep h.entry_kind, hkeep h.exit_kind, hkeep h.exceptionalExit_kind, ?_, ?_, ?_⟩
  · intro i block hi
    rcases getElem?_push_cases hi with hi | ⟨rfl, rfl⟩
    · exact h.block_id i block hi
    · rfl
  · intro i block hi n hn
    rcases getElem?_push_cases hi with hi | ⟨rfl, rfl⟩
    · exact h.listed_held i block hi n hn
    · simp at hn
  · intro i block hi n p hg hp
    rcases getElem?_push_cases hi with hi | ⟨rfl, rfl⟩
    · exact h.listed_count i block hi n p hg hp
    · simp
  · intro i block hi
    rcases getElem?_push_cases hi with hi | ⟨rfl, rfl⟩
    · exact h.unlinked i block hi
    · exact ⟨rfl, rfl⟩

theorem Consistent.create (h : d.Consistent) (kind : NodeKind) : (d.create kind).Consistent := by
  refine ⟨h.block_id, h.entry_kind, h.exit_kind, h.exceptionalExit_kind, ?_, ?_, h.unlinked⟩
  · intro i block hi n hn
    obtain ⟨hg, hlt⟩ := holdsNode_iff.mp (h.listed_held i block hi n hn)
    refine holdsNode_iff.mpr ⟨hg, ?_⟩
    change n.index < (d.nodes.push _).size
    simp only [Array.size_push]
    omega
  · intro i block hi n p hg hp
    rcases getElem?_push_cases hp with hp | ⟨hindex, rfl⟩
    · exact h.listed_count i block hi n p hg hp
    · -- the new node stands nowhere yet
      have hnot : n ∉ block.nodes := by
        intro hn
        obtain ⟨_, hlt⟩ := holdsNode_iff.mp (h.listed_held i block hi n hn)
        omega
      simp [List.count_eq_zero_of_not_mem hnot]

/-- A change of nodes that removes no placement keeps a draft consistent. -/
theorem Consistent.modifyNode (h : d.Consistent) (index : Nat) (f : DraftNode → DraftNode)
    (hf : ∀ p, (f p).placements = p.placements) :
    Consistent { d with nodes := d.nodes.modify index f } := by
  refine ⟨h.block_id, h.entry_kind, h.exit_kind, h.exceptionalExit_kind, ?_, ?_, h.unlinked⟩
  · intro i block hi n hn
    have := h.listed_held i block hi n hn
    simpa [holdsNode] using this
  · intro i block hi n p hg hp
    rw [Array.getElem?_modify] at hp
    split at hp
    · obtain ⟨q, hq, rfl⟩ := Option.map_eq_some_iff.mp hp
      rw [hf]
      exact h.listed_count i block hi n q hg hq
    · exact h.listed_count i block hi n p hg hp

theorem Consistent.attachTree (h : d.Consistent) (n : NodeId) (tree : TreeId) :
    (d.attachTree n tree).Consistent := by
  unfold Draft.attachTree
  split
  · refine h.modifyNode n.index _ ?_
    intro p
    split <;> rfl
  · exact ⟨h.block_id, h.entry_kind, h.exit_kind, h.exceptionalExit_kind, h.listed_held,
      h.listed_count, h.unlinked⟩

/-- The blocks after a node has been put at the end of one. -/
theorem append_blocks {b : BlockId} {n : NodeId} (hheld : d.holdsNode n = true) (i : Nat) :
    (d.append b n).blocks[i]? =
      if b = ⟨d.graph, i⟩ then
        d.blocks[i]?.map fun block => { block with nodes := block.nodes ++ [n] }
      else d.blocks[i]? := by
  obtain ⟨graph, index⟩ := b
  by_cases hgraph : graph = d.graph
  · subst hgraph
    by_cases hindex : index = i
    · subst hindex
      simp [append, hheld, Array.getElem?_modify]
    · simp [append, hheld, Array.getElem?_modify, hindex]
  · simp [append, hheld, hgraph]

/-- The nodes after one has been put at the end of a block. -/
theorem append_nodes {b : BlockId} {n : NodeId} (hheld : d.holdsNode n = true) (i : Nat) :
    (d.append b n).nodes[i]? =
      if n.index = i then
        d.nodes[i]?.map fun p => { p with placements := p.placements ++ [b] }
      else d.nodes[i]? := by
  simp [append, hheld, Array.getElem?_modify]

/-- Where `n` meets `b`, one more listing. -/
theorem Consistent.count_append_blocks (h : d.Consistent) {b : BlockId} {n : NodeId}
    (hheld : d.holdsNode n = true) {i : Nat} {block : Block}
    (hi : (d.append b n).blocks[i]? = some block) (m : NodeId) :
    ∃ old, d.blocks[i]? = some old ∧ block.id = old.id ∧
      block.nodes.count m ≤ old.nodes.count m + if b = old.id ∧ m = n then 1 else 0 := by
  rw [append_blocks hheld] at hi
  split at hi
  · next hb =>
    obtain ⟨old, hold, rfl⟩ := Option.map_eq_some_iff.mp hi
    refine ⟨old, hold, rfl, ?_⟩
    simp only [List.count_append, h.block_id i old hold, hb, true_and]
    by_cases hmn : m = n
    · simp [hmn]
    · simp [hmn, List.count_eq_zero_of_not_mem (show m ∉ [n] by simpa using hmn)]
  · exact ⟨block, hi, rfl, by omega⟩

/-- Where `n` meets `b`, one more placement, and never one less. -/
theorem count_append_nodes {b : BlockId} {n m : NodeId} (hheld : d.holdsNode n = true)
    {p : DraftNode} (hp : (d.append b n).nodes[m.index]? = some p) (c : BlockId) :
    ∃ q, d.nodes[m.index]? = some q ∧
      q.placements.count c + (if b = c ∧ m = n then 1 else 0) ≤ p.placements.count c := by
  rw [append_nodes hheld] at hp
  split at hp
  · obtain ⟨q, hq, rfl⟩ := Option.map_eq_some_iff.mp hp
    refine ⟨q, hq, ?_⟩
    simp only [List.count_append]
    split
    · next hb => simp [hb.1]
    · omega
  · next hindex =>
    refine ⟨p, hp, ?_⟩
    have hmn : m ≠ n := fun hmn => hindex (by rw [hmn])
    simp [hmn]

theorem Consistent.append (h : d.Consistent) (b : BlockId) (n : NodeId) :
    (d.append b n).Consistent := by
  cases hheld : d.holdsNode n with
  | false =>
    have heq : d.append b n = { d with unknown := d.unknown ++ [n] } := by
      simp [Draft.append, hheld]
    rw [heq]
    exact ⟨h.block_id, h.entry_kind, h.exit_kind, h.exceptionalExit_kind, h.listed_held,
      h.listed_count, h.unlinked⟩
  | true =>
    have hgraph : (d.append b n).graph = d.graph := by simp [Draft.append, hheld]
    have hsize : (d.append b n).nodes.size = d.nodes.size := by simp [Draft.append, hheld]
    have hkind : ∀ {i : Nat} {k : BlockKind}, d.blocks[i]?.map Block.kind = some k →
        (d.append b n).blocks[i]?.map Block.kind = some k := by
      intro i k hk
      rw [append_blocks hheld]
      split
      · simpa [Function.comp_def] using hk
      · exact hk
    refine ⟨?_, hkind h.entry_kind, hkind h.exit_kind, hkind h.exceptionalExit_kind, ?_, ?_, ?_⟩
    · intro i block hi
      rw [append_blocks hheld] at hi
      rw [hgraph]
      split at hi
      · obtain ⟨old, hold, rfl⟩ := Option.map_eq_some_iff.mp hi
        exact h.block_id i old hold
      · exact h.block_id i block hi
    · intro i block hi m hm
      rw [holdsNode_iff, hgraph, hsize, ← holdsNode_iff]
      rw [append_blocks hheld] at hi
      split at hi
      · obtain ⟨old, hold, rfl⟩ := Option.map_eq_some_iff.mp hi
        rcases List.mem_append.mp hm with hm | hm
        · exact h.listed_held i old hold m hm
        · rw [List.mem_singleton.mp hm]
          exact hheld
      · exact h.listed_held i block hi m hm
    · -- listing and placement grow together where `n` meets `b`, and only placements elsewhere
      intro i block hi m p hg hp
      obtain ⟨old, hold, hid, hlisted⟩ := h.count_append_blocks hheld hi m
      obtain ⟨q, hq, hplaced⟩ := count_append_nodes hheld hp old.id
      have hcount := h.listed_count i old hold m q (hgraph ▸ hg) hq
      rw [hid]
      omega
    · intro i block hi
      rw [append_blocks hheld] at hi
      split at hi
      · obtain ⟨old, hold, rfl⟩ := Option.map_eq_some_iff.mp hi
        exact h.unlinked i old hold
      · exact h.unlinked i block hi

theorem Consistent.apply (h : d.Consistent) (step : Step) : (d.apply step).Consistent := by
  cases step with
  | addBlock kind => exact h.addBlock kind
  | create kind => exact h.create kind
  | append block node => exact h.append block node
  | push block kind => exact (h.create kind).append block d.nextNode
  | attachTree node tree => exact h.attachTree node tree
  | addEdge source target label =>
    exact ⟨h.block_id, h.entry_kind, h.exit_kind, h.exceptionalExit_kind, h.listed_held,
      h.listed_count, h.unlinked⟩
  | markFinal var =>
    exact ⟨h.block_id, h.entry_kind, h.exit_kind, h.exceptionalExit_kind, h.listed_held,
      h.listed_count, h.unlinked⟩

theorem Consistent.applyAll (h : d.Consistent) (steps : List Step) :
    (d.applyAll steps).Consistent := by
  induction steps generalizing d with
  | nil => exact h
  | cons step rest ih => exact ih (h.apply step)

/-! ## Entering edges -/

/-- The blocks after one edge has been entered. -/
theorem enter_eq {graph : GraphId} {blocks : Array Block}
    (hid : ∀ (i : Nat) (block : Block), blocks[i]? = some block → block.id = ⟨graph, i⟩) {e : Edge}
    (hsource : e.source.graph = graph) (htarget : e.target.graph = graph) :
    enter blocks e = blocks.map fun block => block.withEdges [e] := by
  apply Array.ext_getElem?
  intro i
  have hindex : ∀ b : BlockId, b.graph = graph → (b = ⟨graph, i⟩ ↔ b.index = i) := by
    rintro ⟨_, index⟩ rfl
    simp
  rw [enter, Array.getElem?_modify, Array.getElem?_modify, Array.getElem?_map]
  cases hblock : blocks[i]? with
  | none => simp
  | some block =>
    have hs := hindex e.source hsource
    have ht := hindex e.target htarget
    rw [← hid i block hblock] at hs ht
    by_cases hsi : e.source.index = i <;> by_cases hti : e.target.index = i <;>
      simp [Block.withEdges, List.filter_cons, hs, ht, hsi, hti]

/-- The blocks after edges have been entered one after the other. -/
theorem foldl_enter {graph : GraphId} {blocks : Array Block}
    (hid : ∀ (i : Nat) (block : Block), blocks[i]? = some block → block.id = ⟨graph, i⟩)
    {es : List Edge} (hes : ∀ e ∈ es, e.source.graph = graph ∧ e.target.graph = graph) :
    es.foldl enter blocks = blocks.map fun block => block.withEdges es := by
  induction es generalizing blocks with
  | nil => simp [Block.withEdges]
  | cons e es ih =>
    obtain ⟨⟨hsource, htarget⟩, hes⟩ := List.forall_mem_cons.mp hes
    rw [List.foldl_cons, enter_eq hid hsource htarget, ih ?_ hes, Array.map_map]
    · congr 1
      funext block
      exact block.withEdges_withEdges [e] es
    · intro i block hi
      rw [Array.getElem?_map] at hi
      obtain ⟨old, hold, rfl⟩ := Option.map_eq_some_iff.mp hi
      exact hid i old hold

theorem link_eq_ok_iff {blocks blocks' : Array Block} {e : Edge} :
    d.link blocks e = .ok blocks' ↔
      (d.holdsBlock e.source = true ∧ d.holdsBlock e.target = true) ∧ enter blocks e = blocks' := by
  unfold link
  cases hsource : d.holdsBlock e.source <;> cases htarget : d.holdsBlock e.target <;>
    simp [hsource, htarget]

/-- The loop over the edges ends exactly if all of them end at blocks, and has entered each then. -/
theorem foldlM_link_eq_ok_iff {es : List Edge} {blocks blocks' : Array Block} :
    es.foldlM d.link blocks = .ok blocks' ↔
      (∀ e ∈ es, d.holdsBlock e.source = true ∧ d.holdsBlock e.target = true) ∧
        blocks' = es.foldl enter blocks := by
  induction es generalizing blocks with
  | nil =>
    rw [List.foldlM_nil]
    simpa [pure, Except.pure] using eq_comm
  | cons e es ih =>
    rw [List.foldlM_cons, List.forall_mem_cons, List.foldl_cons]
    cases hlink : d.link blocks e with
    | error fault =>
      have hnot : ¬ (d.holdsBlock e.source = true ∧ d.holdsBlock e.target = true) := by
        intro hheld
        rw [link_eq_ok_iff.mpr ⟨hheld, rfl⟩] at hlink
        cases hlink
      simp [bind, Except.bind, hnot]
    | ok entered =>
      obtain ⟨hheld, rfl⟩ := link_eq_ok_iff.mp hlink
      simp only [hheld, true_and]
      exact ih

/-! ## Freezing -/

/-- A node freezes only if it was placed exactly once, in a block that exists. -/
theorem freezeNode_eq_ok {p : DraftNode} {i : Nat} {node : Node}
    (h : d.freezeNode p i = .ok node) :
    node.id = ⟨d.graph, i⟩ ∧ p.placements = [node.block] ∧ node.kind = p.kind := by
  unfold freezeNode at h
  cases hp : p.placements with
  | nil => simp [hp] at h
  | cons b rest =>
    cases rest with
    | cons c rest => simp [hp] at h
    | nil =>
      simp only [hp] at h
      split at h
      · split at h
        · cases h
        · cases h
          exact ⟨rfl, rfl, rfl⟩
      · cases h

/-- The graph that a draft freezes into if its nodes freeze into these. -/
def frozen (d : Draft) (nodes : List Node) : Graph where
  id := d.graph
  code := d.code
  blocks := d.blocks.map fun block => block.withEdges d.edges
  nodes := nodes.toArray
  returns := (nodes.filter fun n => n.kind.isReturn).map Node.id
  effectivelyFinal := d.effectivelyFinal

/-- What the freezing of a draft goes through. -/
theorem freeze_eq_ok_iff (hd : d.Consistent) {g : Graph} : d.freeze = .ok g ↔
    d.unknown = [] ∧
      (∀ e ∈ d.edges, d.holdsBlock e.source = true ∧ d.holdsBlock e.target = true) ∧
      (∀ block ∈ d.blocks, d.blockFault? (block.withEdges d.edges) = none) ∧
      ∃ nodes : List Node,
        (d.nodes.toList.zipIdx.map fun (p, index) => d.freezeNode p index) = nodes.map .ok ∧
        g = d.frozen nodes := by
  have hblocks : ∀ blocks, d.edges.foldlM d.link d.blocks = .ok blocks ↔
      (∀ e ∈ d.edges, d.holdsBlock e.source = true ∧ d.holdsBlock e.target = true) ∧
        blocks = d.blocks.map fun block => block.withEdges d.edges := by
    intro blocks
    rw [foldlM_link_eq_ok_iff]
    refine and_congr_right fun hends => ?_
    rw [foldl_enter hd.block_id fun e he => ⟨(holdsBlock_iff.mp (hends e he).1).1,
      (holdsBlock_iff.mp (hends e he).2).1⟩]
  have hfaults : (d.blocks.map fun block => block.withEdges d.edges).toList.findSome?
        d.blockFault? = none ↔
      ∀ block ∈ d.blocks, d.blockFault? (block.withEdges d.edges) = none := by
    simp
  constructor
  · intro h
    unfold freeze at h
    split at h
    · cases h
    · next hunknown =>
      split at h
      · cases h
      · next blocks hlinked =>
        obtain ⟨hends, rfl⟩ := (hblocks _).mp hlinked
        split at h
        · cases h
        · next nodes hnodes =>
          split at h
          · cases h
          · next hnone =>
            exact ⟨hunknown, hends, hfaults.mp hnone, nodes, mapM_eq_ok_iff.mp hnodes,
              (Except.ok.inj h).symm⟩
  · rintro ⟨hunknown, hends, hnone, nodes, hnodes, rfl⟩
    unfold freeze
    simp only [hunknown, (hblocks _).mpr ⟨hends, rfl⟩, mapM_eq_ok_iff.mpr hnodes,
      hfaults.mpr hnone]
    rfl

/-- Blocks list only nodes of the draft, so that freezing finds no fault but one of form. -/
theorem Consistent.blockFault?_eq_none_iff (hd : d.Consistent) {block : Block}
    (hblock : block ∈ d.blocks) : d.blockFault? (block.withEdges d.edges) = none ↔
      Shape.HasForm block.kind block.nodes.length
        ((d.edges.filter fun e => e.source = block.id).map Edge.label) := by
  obtain ⟨i, hi⟩ := Array.mem_iff_getElem?.mp hblock
  have hlisted : (block.nodes.find? fun n => !d.holdsNode n) = none := by
    rw [List.find?_eq_none]
    intro n hn
    simp [hd.listed_held i block hi n hn]
  simp [blockFault?, Block.withEdges, hlisted, (hd.unlinked i block hi).1,
    Shape.fault?_eq_none_iff]

/-- The frozen nodes stand at the positions of the nodes they come from. -/
theorem freeze_node {nodes : List Node}
    (h : (d.nodes.toList.zipIdx.map fun (p, index) => d.freezeNode p index) = nodes.map .ok)
    (i : Nat) :
    d.nodes[i]?.map (fun p => d.freezeNode p i) = nodes[i]?.map .ok := by
  have hi := congrArg (fun l => l[i]?) h
  simpa [List.getElem?_zipIdx, Function.comp_def] using hi

/-- A listed node was placed once, and its one placement is the block that lists it. -/
theorem Consistent.placed_once (hd : d.Consistent) {nodes : List Node}
    (hnodes : (d.nodes.toList.zipIdx.map fun (p, index) => d.freezeNode p index) = nodes.map .ok)
    {i : Nat} {block : Block} (hi : d.blocks[i]? = some block) {n : NodeId}
    (hn : n ∈ block.nodes) : block.nodes.count n = 1 ∧
      ∃ node, n.graph = d.graph ∧ nodes[n.index]? = some node ∧ node.block = block.id := by
  obtain ⟨hgraph, hlt⟩ := holdsNode_iff.mp (hd.listed_held i block hi n hn)
  have hp : d.nodes[n.index]? = some d.nodes[n.index] := Array.getElem?_eq_getElem hlt
  have hfrozen := freeze_node hnodes n.index
  rw [hp, Option.map_some] at hfrozen
  obtain ⟨node, hnode, hok⟩ := Option.map_eq_some_iff.mp hfrozen.symm
  obtain ⟨-, hplacements, -⟩ := freezeNode_eq_ok hok.symm
  have hcount := hd.listed_count i block hi n _ hgraph hp
  have hpos : 0 < block.nodes.count n := List.count_pos_iff.mpr hn
  rw [hplacements] at hcount
  have hblock : node.block = block.id := by
    by_contra hne
    have hnot : block.id ∉ [node.block] := by simpa using fun h => hne h.symm
    rw [List.count_eq_zero_of_not_mem hnot] at hcount
    omega
  rw [hblock, List.count_singleton_self] at hcount
  exact ⟨by omega, node, hgraph, hnode, hblock⟩

end Draft

namespace Graph

/-- What a built graph promises. -/
structure WellFormed (g : Graph) : Prop where
  block_id : ∀ (i : Nat) (block : Block), g.blocks[i]? = some block → block.id = ⟨g.id, i⟩
  node_id : ∀ (i : Nat) (node : Node), g.nodes[i]? = some node → node.id = ⟨g.id, i⟩
  entry_kind : g.blocks[0]?.map Block.kind = some (.special .entry)
  exit_kind : g.blocks[1]?.map Block.kind = some (.special .exit)
  exceptionalExit_kind : g.blocks[2]?.map Block.kind = some (.special .exceptionalExit)
  /-- A block lists only nodes of the graph that belong to it. -/
  listed : ∀ (i : Nat) (block : Block), g.blocks[i]? = some block →
    ∀ n ∈ block.nodes, ∃ node, g.node? n = some node ∧ node.block = block.id
  listed_once : ∀ (i : Nat) (block : Block), g.blocks[i]? = some block → block.nodes.Nodup
  ends : ∀ e ∈ g.edges, (g.block? e.source).isSome ∧ (g.block? e.target).isSome
  begins : ∀ (i : Nat) (block : Block), g.blocks[i]? = some block →
    ∀ e ∈ block.successors, e.source = block.id
  /-- Edges are entered at the block they lead to as often as where they come from. -/
  entered : ∀ (i : Nat) (block : Block), g.blocks[i]? = some block →
    block.predecessors.Perm (g.edges.filter fun e => e.target = block.id)
  shape : ∀ (i : Nat) (block : Block), g.blocks[i]? = some block →
    Shape.HasForm block.kind block.nodes.length (block.successors.map Edge.label)
  returns : g.returns = (g.nodes.toList.filter fun n => n.kind.isReturn).map Node.id

theorem block?_isSome_of_holdsBlock {d : Draft} {g : Graph} (hid : g.id = d.graph)
    (hsize : g.blocks.size = d.blocks.size) {b : BlockId} (h : d.holdsBlock b = true) :
    (g.block? b).isSome := by
  obtain ⟨hgraph, hlt⟩ := Draft.holdsBlock_iff.mp h
  simp [block?, hid, hgraph, hsize, hlt]

/-- The edges of a frozen graph, block by block, are those of its draft. -/
theorem edges_frozen_perm {d : Draft} (hd : d.Consistent)
    (hends : ∀ e ∈ d.edges, d.holdsBlock e.source = true ∧ d.holdsBlock e.target = true)
    {nodes : List Node} : (d.frozen nodes).edges.Perm d.edges := by
  have hedges : (d.frozen nodes).edges =
      (d.blocks.toList.map Block.id).flatMap fun b => d.edges.filter fun e => e.source = b := by
    rw [edges, Draft.frozen, Array.toList_map, List.flatMap_map, List.flatMap_map]
    refine List.flatMap_congr fun old hold => ?_
    obtain ⟨i, hi⟩ := List.mem_iff_getElem?.mp hold
    rw [Block.withEdges, (hd.unlinked i old (by simpa using hi)).1, List.nil_append]
  rw [hedges]
  refine flatMap_filter_perm Edge.source (nodup_blockIds hd.block_id) ?_
  intro e he
  obtain ⟨hgraph, hlt⟩ := Draft.holdsBlock_iff.mp (hends e he).1
  have hblock : d.blocks[e.source.index]? = some d.blocks[e.source.index] :=
    Array.getElem?_eq_getElem hlt
  refine List.mem_map.mpr ⟨d.blocks[e.source.index], by simp, ?_⟩
  rw [hd.block_id _ _ hblock, ← hgraph]

theorem wellFormed_of_freeze {d : Draft} {g : Graph} (hd : d.Consistent) (h : d.freeze = .ok g) :
    g.WellFormed := by
  obtain ⟨-, hends, hfaults, nodes, hnodes, rfl⟩ := (Draft.freeze_eq_ok_iff hd).mp h
  -- a block of the graph is one of the draft with its edges entered
  have hold : ∀ (i : Nat) (block : Block), (d.frozen nodes).blocks[i]? = some block →
      ∃ old, d.blocks[i]? = some old ∧ block = old.withEdges d.edges := by
    intro i block hi
    obtain ⟨old, hold, rfl⟩ := Option.map_eq_some_iff.mp (Array.getElem?_map .. ▸ hi)
    exact ⟨old, hold, rfl⟩
  have hkind : ∀ {i : Nat} {k : BlockKind}, d.blocks[i]?.map Block.kind = some k →
      (d.frozen nodes).blocks[i]?.map Block.kind = some k := by
    intro i k hk
    obtain ⟨old, hi, rfl⟩ := Option.map_eq_some_iff.mp hk
    simp [Draft.frozen, hi, Block.withEdges]
  refine ⟨?_, ?_, hkind hd.entry_kind, hkind hd.exit_kind, hkind hd.exceptionalExit_kind, ?_, ?_,
    ?_, ?_, ?_, ?_, rfl⟩
  · intro i block hi
    obtain ⟨old, hget, rfl⟩ := hold i block hi
    exact hd.block_id i old hget
  · intro i node hi
    have hfrozen := Draft.freeze_node hnodes i
    rw [show nodes[i]? = some node by simpa [Draft.frozen] using hi] at hfrozen
    obtain ⟨p, -, hok⟩ := Option.map_eq_some_iff.mp hfrozen
    exact (Draft.freezeNode_eq_ok hok).1
  · intro i block hi n hn
    obtain ⟨old, hget, rfl⟩ := hold i block hi
    obtain ⟨-, node, hgraph, hnode, hblock⟩ := hd.placed_once hnodes hget hn
    exact ⟨node, by simpa [node?, Draft.frozen, hgraph] using hnode, hblock⟩
  · intro i block hi
    obtain ⟨old, hget, rfl⟩ := hold i block hi
    exact List.nodup_iff_count_eq_one.mpr fun n hn => (hd.placed_once hnodes hget hn).1
  · intro e he
    have hheld := hends e ((edges_frozen_perm hd hends).mem_iff.mp he)
    have hsize : (d.frozen nodes).blocks.size = d.blocks.size := by simp [Draft.frozen]
    exact ⟨block?_isSome_of_holdsBlock rfl hsize hheld.1,
      block?_isSome_of_holdsBlock rfl hsize hheld.2⟩
  · intro i block hi e he
    obtain ⟨old, hget, rfl⟩ := hold i block hi
    rw [Block.withEdges, (hd.unlinked i old hget).1, List.nil_append] at he
    simpa [Block.withEdges] using (List.mem_filter.mp he).2
  · intro i block hi
    obtain ⟨old, hget, rfl⟩ := hold i block hi
    rw [Block.withEdges, (hd.unlinked i old hget).2, List.nil_append]
    exact ((edges_frozen_perm hd hends).filter _).symm
  · intro i block hi
    obtain ⟨old, hget, rfl⟩ := hold i block hi
    have hmem : old ∈ d.blocks := Array.mem_of_getElem? hget
    have hnone := (hd.blockFault?_eq_none_iff hmem).mp (hfaults old hmem)
    simpa [Block.withEdges, (hd.unlinked i old hget).1] using hnone

theorem Built.wellFormed {g : Graph} (h : g.Built) : g.WellFormed := by
  obtain ⟨id, code, steps, hfreeze⟩ := h
  exact wellFormed_of_freeze ((Draft.start_consistent id code).applyAll steps) hfreeze

end Graph

theorem exists_eq_ok {ε α : Type} {x : Except ε α} (h : x.toOption.isSome = true) :
    ∃ a, x = .ok a := by
  cases x with
  | ok a => exact ⟨a, rfl⟩
  | error e => cases h

/-- The graph that operations on a fresh draft freeze into; one without blocks if there is a fault. -/
def Graph.ofSteps (code : CodeUnit) (steps : List Draft.Step) : Graph :=
  match ((Draft.start 0 code).applyAll steps).freeze with
  | .ok g => g
  | .error _ => { id := 0, code, blocks := #[], nodes := #[], returns := [], effectivelyFinal := ∅ }

/-- Operations without a fault build a graph. -/
theorem Graph.built_ofSteps {code : CodeUnit} {steps : List Draft.Step}
    (h : ((Draft.start 0 code).applyAll steps).freeze.toOption.isSome = true) :
    (ofSteps code steps).Built := by
  obtain ⟨g, hg⟩ := exists_eq_ok h
  refine ⟨0, code, steps, ?_⟩
  rw [ofSteps, hg]

end FlowFixpoint
