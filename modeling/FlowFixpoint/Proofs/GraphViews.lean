/-
# FlowFixpoint.Proofs.GraphViews — the nodes, routes and branches of a well-formed graph.

Looking things up in a well-formed graph never fails, so the walk through a block and the routes
out of it have total forms: `nodesOf`, `passedNodes` and `routesOf`. Edges are entered at both ends,
so successors and predecessors are the edges of the graph seen from one of its blocks. The form of a
block's kind says which labels its outgoing edges carry; here that becomes the facts that the engine
relies on, that only conditional blocks branch, that they do so exactly once each way, and that edges
for exceptions leave blocks of one node only.
-/
import FlowFixpoint.Graph.Direction
import FlowFixpoint.Proofs.BuiltGraph

namespace FlowFixpoint

/-- All ways to point at an element of a list: what stands before it, the element, what follows. -/
def splits {α : Type} : List α → List (List α × α × List α)
  | [] => []
  | a :: l => ([], a, l) :: (splits l).map fun t => (a :: t.1, t.2.1, t.2.2)

theorem mem_splits {α : Type} {l pre post : List α} {a : α} :
    (pre, a, post) ∈ splits l ↔ l = pre ++ a :: post := by
  induction l generalizing pre with
  | nil => simp [splits]
  | cons b l ih =>
    cases pre with
    | nil => simp [splits, and_comm, eq_comm]
    | cons c pre => simp [splits, ih, eq_comm, and_comm]

/-- The node assigns the local. -/
def Node.Assigns (n : Node) (x : LocalVar) : Prop := ∃ m, n.kind = .assignment x m

/-- The edges that flow takes out of a block; none for identifiers of other graphs. -/
def Direction.edgesFrom (d : Direction) (g : Graph) (b : BlockId) : List Edge :=
  match d with
  | forward => g.successors b
  | backward => g.predecessors b

namespace Graph

/-! ## Nodes and routes -/

/-- The nodes that a block lists, in the order of their execution. -/
def nodesOf (g : Graph) (b : BlockId) : List Node :=
  ((g.block? b).map Block.nodes).getD [] |>.filterMap g.node?

/-- The nodes that a block lists, in the order a direction passes them. -/
def passedNodes (g : Graph) (d : Direction) (b : BlockId) : List Node :=
  match d with
  | .forward => g.nodesOf b
  | .backward => (g.nodesOf b).reverse

/-- The flow edges out of a block. -/
def routesOf (g : Graph) (d : Direction) (b : BlockId) : List Route :=
  (d.edgesFrom g b).filterMap fun e =>
    (g.block? (d.head e)).map fun block =>
      { label := e.label, reached := d.head e, kind := block.kind }

/-- The nodes that end the method, by position. -/
def returning (g : Graph) : List Node := g.nodes.toList.filter fun n => n.kind.isReturn

/-- A look-up by identifier is a look-up by position. -/
theorem block?_eq_some_iff {g : Graph} {b : BlockId} {block : Block} :
    g.block? b = some block ↔ b.graph = g.id ∧ g.blocks[b.index]? = some block := by
  simp [block?]

theorem node?_eq_some_iff {g : Graph} {n : NodeId} {node : Node} :
    g.node? n = some node ↔ n.graph = g.id ∧ g.nodes[n.index]? = some node := by
  simp [node?]

theorem edgesFrom_eq {g : Graph} (d : Direction) {b : BlockId} {block : Block}
    (h : g.block? b = some block) : d.edgesFrom g b = d.edgesOf block := by
  cases d <;> simp [Direction.edgesFrom, Direction.edgesOf, successors, predecessors, h]

theorem mem_passedNodes {g : Graph} {d : Direction} {b : BlockId} {node : Node} :
    node ∈ g.passedNodes d b ↔ node ∈ g.nodesOf b := by
  cases d <;> simp [passedNodes]

theorem mem_nodesOf {g : Graph} {b : BlockId} {node : Node} :
    node ∈ g.nodesOf b ↔
      ∃ block, g.block? b = some block ∧ ∃ n ∈ block.nodes, g.node? n = some node := by
  unfold nodesOf
  cases g.block? b <;> simp

namespace WellFormed

variable {g : Graph} (hg : g.WellFormed)

include hg

theorem id_of_block? {b : BlockId} {block : Block} (h : g.block? b = some block) :
    block.id = b := by
  obtain ⟨hgraph, hget⟩ := block?_eq_some_iff.mp h
  rw [hg.block_id _ _ hget, ← hgraph]

theorem id_of_node? {n : NodeId} {node : Node} (h : g.node? n = some node) : node.id = n := by
  obtain ⟨hgraph, hget⟩ := node?_eq_some_iff.mp h
  rw [hg.node_id _ _ hget, ← hgraph]

theorem mem_nodes_iff {node : Node} : node ∈ g.nodes ↔ g.node? node.id = some node := by
  constructor
  · intro h
    obtain ⟨i, hi⟩ := Array.mem_iff_getElem?.mp h
    rw [hg.node_id i node hi]
    exact node?_eq_some_iff.mpr ⟨rfl, hi⟩
  · intro h
    exact Array.mem_of_getElem? (node?_eq_some_iff.mp h).2

theorem mem_blocks_iff {block : Block} : block ∈ g.blocks ↔ g.block? block.id = some block := by
  constructor
  · intro h
    obtain ⟨i, hi⟩ := Array.mem_iff_getElem?.mp h
    rw [hg.block_id i block hi]
    exact block?_eq_some_iff.mpr ⟨rfl, hi⟩
  · intro h
    exact Array.mem_of_getElem? (block?_eq_some_iff.mp h).2

theorem exists_block_source {e : Edge} (he : e ∈ g.edges) :
    ∃ block, g.block? e.source = some block :=
  Option.isSome_iff_exists.mp (hg.ends e he).1

theorem exists_block_target {e : Edge} (he : e ∈ g.edges) :
    ∃ block, g.block? e.target = some block :=
  Option.isSome_iff_exists.mp (hg.ends e he).2

theorem exists_block_head (d : Direction) {e : Edge} (he : e ∈ g.edges) :
    ∃ block, g.block? (d.head e) = some block := by
  cases d with
  | forward => exact hg.exists_block_target he
  | backward => exact hg.exists_block_source he

theorem exists_block_tail (d : Direction) {e : Edge} (he : e ∈ g.edges) :
    ∃ block, g.block? (d.tail e) = some block := by
  cases d with
  | forward => exact hg.exists_block_source he
  | backward => exact hg.exists_block_target he

/-! ## Edges at a block -/

theorem mem_successors {b : BlockId} {e : Edge} :
    e ∈ g.successors b ↔ e ∈ g.edges ∧ e.source = b := by
  constructor
  · intro he
    cases hblock : g.block? b with
    | none => simp [Graph.successors, hblock] at he
    | some block =>
      simp only [Graph.successors, hblock] at he
      have hget := (block?_eq_some_iff.mp hblock).2
      refine ⟨List.mem_flatMap.mpr ⟨block, ?_, he⟩, ?_⟩
      · exact Array.mem_toList_iff.mpr (Array.mem_of_getElem? hget)
      · rw [hg.begins _ _ hget e he, hg.id_of_block? hblock]
  · rintro ⟨he, rfl⟩
    obtain ⟨block, hblock, he⟩ := List.mem_flatMap.mp he
    have hfound := hg.mem_blocks_iff.mp (Array.mem_toList_iff.mp hblock)
    have hsource := hg.begins _ _ (block?_eq_some_iff.mp hfound).2 e he
    rw [Graph.successors, hsource, hfound]
    exact he

/-- At a block there are as many edges in as lead to it. -/
theorem predecessors_perm (b : BlockId) :
    (g.predecessors b).Perm (g.edges.filter fun e => e.target = b) := by
  cases hblock : g.block? b with
  | none =>
    have hnone : (g.edges.filter fun e => e.target = b) = [] := by
      refine List.filter_eq_nil_iff.mpr fun e he hb => ?_
      obtain ⟨block, hsome⟩ := hg.exists_block_target he
      rw [of_decide_eq_true hb, hblock] at hsome
      cases hsome
    rw [predecessors, hblock, hnone]
  | some block =>
    rw [predecessors, hblock]
    have hperm := hg.entered _ _ (block?_eq_some_iff.mp hblock).2
    rwa [hg.id_of_block? hblock] at hperm

theorem mem_predecessors {b : BlockId} {e : Edge} :
    e ∈ g.predecessors b ↔ e ∈ g.edges ∧ e.target = b := by
  simp [(hg.predecessors_perm b).mem_iff]

theorem mem_edgesFrom {d : Direction} {b : BlockId} {e : Edge} :
    e ∈ d.edgesFrom g b ↔ e ∈ g.edges ∧ d.tail e = b := by
  cases d with
  | forward => exact hg.mem_successors
  | backward => exact hg.mem_predecessors

theorem exists_edge_of_successor? {b c : BlockId} {label : EdgeLabel}
    (h : g.successor? b label = some c) :
    ∃ e ∈ g.edges, e.source = b ∧ e.label = label ∧ e.target = c := by
  obtain ⟨e, hfind, rfl⟩ := Option.map_eq_some_iff.mp h
  have hmem := hg.mem_successors.mp (List.mem_of_find?_eq_some hfind)
  exact ⟨e, hmem.1, hmem.2, by simpa using List.find?_some hfind, rfl⟩

theorem mem_routesOf {d : Direction} {b : BlockId} {r : Route} :
    r ∈ g.routesOf d b ↔ ∃ e ∈ g.edges, d.tail e = b ∧ ∃ block, g.block? (d.head e) = some block ∧
      r = { label := e.label, reached := d.head e, kind := block.kind } := by
  simp only [routesOf, List.mem_filterMap, hg.mem_edgesFrom, Option.map_eq_some_iff]
  constructor
  · rintro ⟨e, ⟨he, ht⟩, block, hblock, rfl⟩
    exact ⟨e, he, ht, block, hblock, rfl⟩
  · rintro ⟨e, he, ht, block, hblock, rfl⟩
    exact ⟨e, ⟨he, ht⟩, block, hblock, rfl⟩

/-! ## Look-ups that never fail -/

theorem exists_node_of_listed {b : BlockId} {block : Block} (h : g.block? b = some block)
    {n : NodeId} (hn : n ∈ block.nodes) : ∃ node, g.node? n = some node ∧ node.block = b := by
  obtain ⟨-, hget⟩ := block?_eq_some_iff.mp h
  obtain ⟨node, hnode, hblock⟩ := hg.listed _ _ hget n hn
  exact ⟨node, hnode, by rw [hblock, hg.id_of_block? h]⟩

/-- The total form of the nodes passed is their result. -/
theorem passedBy_eq (d : Direction) {b : BlockId} {block : Block} (h : g.block? b = some block) :
    g.passedBy d block = .ok (g.passedNodes d b) := by
  have hall : ∀ ns : List NodeId, (∀ n ∈ ns, n ∈ block.nodes) →
      ns.mapM g.nodeAt = .ok (ns.filterMap g.node?) := by
    intro ns hns
    rw [mapM_eq_ok_iff]
    induction ns with
    | nil => rfl
    | cons n ns ih =>
      obtain ⟨node, hnode, -⟩ := hg.exists_node_of_listed h (hns n (by simp))
      have hrest := ih fun m hm => hns m (by simp [hm])
      simp [nodeAt, hnode, hrest]
  cases d with
  | forward =>
    change block.nodes.mapM g.nodeAt = _
    rw [hall block.nodes fun n hn => hn]
    simp [passedNodes, nodesOf, h]
  | backward =>
    change block.nodes.reverse.mapM g.nodeAt = _
    rw [hall block.nodes.reverse fun n hn => List.mem_reverse.mp hn]
    simp [passedNodes, nodesOf, h]

theorem walk_eq (d : Direction) {b : BlockId} {block : Block} (h : g.block? b = some block) :
    g.walk d b = .ok (g.passedNodes d b) := by
  rw [walk, blockAt, h]
  exact hg.passedBy_eq d h

/-- The total form of the routes is their result. -/
theorem routes_eq (d : Direction) {b : BlockId} {block : Block} (h : g.block? b = some block) :
    g.routes d block = .ok (g.routesOf d b) := by
  unfold routes routesOf
  rw [mapM_eq_ok_iff, ← edgesFrom_eq d h]
  have hall : ∀ e ∈ d.edgesFrom g b, e ∈ g.edges := fun e he => (hg.mem_edgesFrom.mp he).1
  generalize d.edgesFrom g b = es at hall ⊢
  induction es with
  | nil => rfl
  | cons e es ih =>
    obtain ⟨block, hblock⟩ := hg.exists_block_head d (hall e (by simp))
    have hrest := ih fun e' he' => hall e' (by simp [he'])
    have hat : g.blockAt (d.head e) = .ok block := by simp [blockAt, hblock]
    rw [List.map_cons, hrest, List.filterMap_cons_some (by rw [hblock]; rfl), List.map_cons, hat]
    rfl

/-- The nodes that freezing has noted down as ends of the method are there. -/
theorem returnNodes_eq : g.returnNodes = .ok g.returning := by
  have hall : ∀ n ∈ g.returning, g.nodeAt n.id = .ok n := by
    intro n hn
    have hmem : n ∈ g.nodes := Array.mem_toList_iff.mp (List.mem_of_mem_filter hn)
    rw [nodeAt, hg.mem_nodes_iff.mp hmem]
  rw [returnNodes, mapM_eq_ok_iff, hg.returns, List.map_map]
  exact List.map_congr_left hall

/-! ## Which block a node belongs to -/

theorem block_of_mem_nodesOf {b : BlockId} {node : Node} (hn : node ∈ g.nodesOf b) :
    node.block = b ∧ g.node? node.id = some node := by
  obtain ⟨block, h, n, hmem, hnode⟩ := mem_nodesOf.mp hn
  obtain ⟨node', hnode', hblock⟩ := hg.exists_node_of_listed h hmem
  obtain rfl : node = node' := by simpa [hnode] using hnode'
  exact ⟨hblock, by rwa [hg.id_of_node? hnode]⟩

/-- A listed node that is found as a read is one. -/
theorem kind_of_localRead? {b : BlockId} {node : Node} (hn : node ∈ g.nodesOf b) {x : LocalVar}
    (h : g.localRead? node.id = some x) : node.kind = .localRead x := by
  obtain ⟨-, hnode⟩ := hg.block_of_mem_nodesOf hn
  simp only [localRead?, hnode, Option.map_some] at h
  split at h
  · next y hkind => rw [Option.some.inj hkind, Option.some.inj h]
  · cases h

theorem kind_of_isNullLiteral {b : BlockId} {node : Node} (hn : node ∈ g.nodesOf b)
    (h : g.isNullLiteral node.id = true) : node.kind = .literal .null := by
  obtain ⟨-, hnode⟩ := hg.block_of_mem_nodesOf hn
  simpa [isNullLiteral, hnode] using h

/-- Listed nodes are told apart by their identifiers. -/
theorem node_unique {b c : BlockId} {m n : Node} (hm : m ∈ g.nodesOf b) (hn : n ∈ g.nodesOf c)
    (hid : m.id = n.id) : m = n := by
  obtain ⟨-, hm'⟩ := hg.block_of_mem_nodesOf hm
  obtain ⟨-, hn'⟩ := hg.block_of_mem_nodesOf hn
  rw [hid, hn'] at hm'
  exact (Option.some.inj hm').symm

/-- No node is listed by two blocks. -/
theorem block_unique {b c : BlockId} {m n : Node} (hm : m ∈ g.nodesOf b) (hn : n ∈ g.nodesOf c)
    (hid : m.id = n.id) : b = c := by
  rw [← (hg.block_of_mem_nodesOf hm).1, ← (hg.block_of_mem_nodesOf hn).1,
    hg.node_unique hm hn hid]

/-- No node is listed twice. -/
theorem nodesOf_nodup (b : BlockId) : ((g.nodesOf b).map Node.id).Nodup := by
  unfold nodesOf
  cases h : g.block? b with
  | none => simp
  | some block =>
    obtain ⟨-, hget⟩ := block?_eq_some_iff.mp h
    have hids : ∀ ns : List NodeId, (∀ n ∈ ns, n ∈ block.nodes) →
        (ns.filterMap g.node?).map Node.id = ns := by
      intro ns hns
      induction ns with
      | nil => rfl
      | cons n ns ih =>
        obtain ⟨node, hnode, -⟩ := hg.exists_node_of_listed h (hns n (by simp))
        rw [List.filterMap_cons_some hnode, List.map_cons, hg.id_of_node? hnode,
          ih fun m hm => hns m (by simp [hm])]
    simpa [hids block.nodes fun n hn => hn] using hg.listed_once _ _ hget

/-- Nodes at different places of a block are different. -/
theorem id_ne_of_split {b : BlockId} {pre post : List Node} (h : g.nodesOf b = pre ++ post)
    {k j : Node} (hk : k ∈ pre) (hj : j ∈ post) : k.id ≠ j.id := by
  have hnodup := hg.nodesOf_nodup b
  rw [h, List.map_append, List.nodup_append] at hnodup
  exact hnodup.2.2 _ (List.mem_map_of_mem hk) _ (List.mem_map_of_mem hj)

theorem nodup_of_split {b : BlockId} {pre post : List Node} (h : g.nodesOf b = pre ++ post) :
    (pre.map Node.id).Nodup := by
  have hnodup := hg.nodesOf_nodup b
  rw [h, List.map_append, List.nodup_append] at hnodup
  exact hnodup.1

theorem passedNodes_nodup (d : Direction) (b : BlockId) :
    ((g.passedNodes d b).map Node.id).Nodup := by
  cases d with
  | forward => exact hg.nodesOf_nodup b
  | backward =>
    simp only [passedNodes, List.map_reverse, List.nodup_reverse]
    exact hg.nodesOf_nodup b

/-! ## Branches -/

theorem hasForm {b : BlockId} {block : Block} (h : g.block? b = some block) :
    Shape.HasForm block.kind block.nodes.length ((g.successors b).map Edge.label) := by
  rw [successors, h]
  exact hg.shape _ _ (block?_eq_some_iff.mp h).2

/-- A conditional block has one way on for each outcome and no other. -/
theorem successors_conditional {b : BlockId} {block : Block} (h : g.block? b = some block)
    (hkind : block.kind = .conditional) :
    ∃ t f : Edge, t.label = .onTrue ∧ f.label = .onFalse ∧
      (g.successors b = [t, f] ∨ g.successors b = [f, t]) := by
  have hform := hg.hasForm h
  rw [hkind] at hform
  obtain ⟨-, hperm⟩ := hform
  obtain ⟨t, ht, htlabel⟩ := List.mem_map.mp (hperm.mem_iff.mpr List.mem_cons_self)
  obtain ⟨f, hf, hflabel⟩ :=
    List.mem_map.mp (hperm.mem_iff.mpr (List.mem_cons_of_mem _ List.mem_cons_self))
  refine ⟨t, f, htlabel, hflabel, ?_⟩
  obtain ⟨x, y, hxy⟩ := List.length_eq_two.mp
    ((List.length_map Edge.label).symm.trans hperm.length_eq)
  rw [hxy] at ht hf ⊢
  have htf : t ≠ f := fun heq => by simp [heq, hflabel] at htlabel
  grind

/-- Only conditional blocks have edges that depend on an outcome. -/
theorem label_of_not_conditional {b : BlockId} {block : Block} (h : g.block? b = some block)
    (hkind : block.kind ≠ .conditional) {e : Edge} (he : e ∈ g.edges) (hsource : e.source = b) :
    e.label ≠ .onTrue ∧ e.label ≠ .onFalse :=
  (hg.hasForm h).label_of_not_conditional hkind
    (List.mem_map_of_mem (hg.mem_successors.mpr ⟨he, hsource⟩))

/-- An edge for an exception leaves an exceptional block, and that has one node. -/
theorem nodesOf_of_exception {b : BlockId} {block : Block} (h : g.block? b = some block) {e : Edge}
    (he : e ∈ g.edges) (hsource : e.source = b) {type : ExceptionType}
    (hlabel : e.label = .exception type) :
    block.kind = .exceptional ∧ ∃ n, g.nodesOf b = [n] := by
  have hmem : .exception type ∈ (g.successors b).map Edge.label :=
    List.mem_map.mpr ⟨e, hg.mem_successors.mpr ⟨he, hsource⟩, hlabel⟩
  obtain ⟨hkind, hlength⟩ := (hg.hasForm h).of_exception hmem
  obtain ⟨m, hm⟩ := List.length_eq_one_iff.mp hlength
  obtain ⟨n, hn, -⟩ := hg.exists_node_of_listed h (n := m) (by simp [hm])
  exact ⟨hkind, n, by simp [nodesOf, h, hm, hn]⟩

/-- The edges out of a conditional block carry an outcome. -/
theorem label_of_conditional {b : BlockId} {block : Block} (h : g.block? b = some block)
    (hkind : block.kind = .conditional) {e : Edge} (he : e ∈ g.edges) (hsource : e.source = b) :
    e.label = .onTrue ∨ e.label = .onFalse := by
  obtain ⟨t, f, ht, hf, hsucc⟩ := hg.successors_conditional h hkind
  have hmem := hg.mem_successors.mpr ⟨he, hsource⟩
  rcases hsucc with hsucc | hsucc <;> rw [hsucc] at hmem <;> simp at hmem <;>
    rcases hmem with rfl | rfl <;> simp [ht, hf]

/-- The edges out of a conditional block are found by their labels. -/
theorem successor?_of_edge {b : BlockId} {block : Block} (h : g.block? b = some block)
    (hkind : block.kind = .conditional) {e : Edge} (he : e ∈ g.edges) (hsource : e.source = b) :
    g.successor? b e.label = some e.target := by
  obtain ⟨t, f, ht, hf, hsucc⟩ := hg.successors_conditional h hkind
  have hmem := hg.mem_successors.mpr ⟨he, hsource⟩
  unfold successor?
  rcases hsucc with hsucc | hsucc
  all_goals
    rw [hsucc] at hmem ⊢
    rcases List.mem_pair.mp hmem with rfl | rfl <;> simp [ht, hf]

/-- Flow starts at special blocks. -/
theorem kind_of_starts {d : Direction} {b : BlockId} (hb : b ∈ d.starts g) :
    ∃ block kind, g.block? b = some block ∧ block.kind = .special kind := by
  have hmain : ∀ i kind, g.blocks[i]?.map Block.kind = some (.special kind) →
      ∃ block kind, g.block? ⟨g.id, i⟩ = some block ∧ block.kind = .special kind := by
    intro i kind hi
    obtain ⟨block, hblock, hkind⟩ := Option.map_eq_some_iff.mp hi
    exact ⟨block, kind, block?_eq_some_iff.mpr ⟨rfl, hblock⟩, hkind⟩
  cases d with
  | forward =>
    obtain rfl := List.mem_singleton.mp hb
    exact hmain 0 _ hg.entry_kind
  | backward =>
    rcases List.mem_pair.mp hb with rfl | rfl
    · exact hmain 1 _ hg.exit_kind
    · exact hmain 2 _ hg.exceptionalExit_kind

/-- A property of all nodes, each seen with the nodes before and after it in its block, can be
checked block by block. -/
theorem forall_nodesOf {P : BlockId → List Node → Node → List Node → Prop}
    (h : ∀ block ∈ g.blocks.toList, ∀ t ∈ splits (g.nodesOf block.id), P block.id t.1 t.2.1 t.2.2)
    {b : BlockId} {pre post : List Node} {n : Node} (hsplit : g.nodesOf b = pre ++ n :: post) :
    P b pre n post := by
  obtain ⟨block, hblock, -⟩ := mem_nodesOf.mp (show n ∈ g.nodesOf b by simp [hsplit])
  obtain rfl := hg.id_of_block? hblock
  obtain ⟨-, hget⟩ := block?_eq_some_iff.mp hblock
  have hmem : block ∈ g.blocks.toList := Array.mem_toList_iff.mpr (Array.mem_of_getElem? hget)
  exact h block hmem (pre, n, post) (mem_splits.mpr hsplit)

end WellFormed

end Graph

end FlowFixpoint
