/-
# FlowFixpoint.Proofs.BlockOrders — reverse postorder and postorder list every block once.

Both orders begin with the blocks that flow from the entry reaches, one order turning round the
part that the other begins with, and go on with the remaining blocks by position. The first part is
the order in which a walk with a stack of its own leaves the blocks, latest first: `Trail.Turns`
does not go through the recursion that computes it.

Along an edge between reached blocks reverse postorder rises, unless the edge leads to a forward
widening point; and some edge into each widening point does not rise.
-/
import FlowFixpoint.Proofs.WideningPoints

namespace FlowFixpoint.Graph

/-- The targets of the edges out of a block, in the order the edges were added. -/
def targetsFrom (g : Graph) (b : BlockId) : List BlockId := (g.successors b).map Edge.target

/-- Reverse postorder and postorder, as orders of the blocks that flow from the entry reaches
followed by the others. -/
structure DepthFirstOrders (g : Graph) (points : Std.ExtTreeSet BlockId)
    (reversePostorder postorder : List BlockId) : Prop where
  /-- Each lists every block once and nothing else. -/
  once : ∀ b, reversePostorder.count b = (if (g.block? b).isSome then 1 else 0) ∧
    postorder.count b = if (g.block? b).isSome then 1 else 0
  entry_first : reversePostorder.head? = some g.entry
  /-- The reached blocks stand in front, as a walk with a stack leaves them; the others follow. -/
  reached_first : ∃ reached others, reversePostorder = reached ++ others ∧
    postorder = reached.reverse ++ others ∧ (∀ b, b ∈ reached ↔ g.Reaches .forward b) ∧
    others.Pairwise (fun b c => b.index < c.index) ∧
    ∃ seen, Trail.Turns g.targetsFrom ([g.entry], {}) ([], ⟨seen, reached⟩)
  rises : ∀ e ∈ g.edges, g.Reaches .forward e.source → e.target ∉ points →
    reversePostorder.idxOf e.source < reversePostorder.idxOf e.target
  falls : ∀ b ∈ points, ∃ e ∈ g.edges, e.target = b ∧ g.Reaches .forward e.source ∧
    reversePostorder.idxOf b ≤ reversePostorder.idxOf e.source

/-! ## The blocks by position -/

/-- Where only one entry of a list without repetitions gives something. -/
theorem flatMap_of_nodup {l : List BlockId} (hnodup : l.Nodup) {b : BlockId} (hb : b ∈ l)
    {f : BlockId → List Edge} (hf : ∀ c, c ≠ b → f c = []) : l.flatMap f = f b := by
  obtain ⟨before, after, rfl⟩ := List.append_of_mem hb
  obtain ⟨-, hafter, hdisjoint⟩ := List.nodup_append.mp hnodup
  have hbefore : before.flatMap f = [] := List.flatMap_eq_nil_iff.mpr fun c hc =>
    hf c (hdisjoint c hc b List.mem_cons_self)
  have hrest : after.flatMap f = [] := List.flatMap_eq_nil_iff.mpr fun c hc =>
    hf c fun hcb => (List.nodup_cons.mp hafter).1 (hcb ▸ hc)
  rw [List.flatMap_append, List.flatMap_cons, hbefore, hrest, List.nil_append, List.append_nil]

namespace WellFormed

variable {g : Graph} (hg : g.WellFormed) {b : BlockId}

include hg

theorem mem_blockIds_iff : b ∈ g.blocks.toList.map Block.id ↔ (g.block? b).isSome := by
  constructor
  · intro hb
    rw [blockIds_eq hg.block_id, List.mem_map] at hb
    obtain ⟨i, hi, rfl⟩ := hb
    simpa [block?] using hi
  · intro hb
    obtain ⟨block, hblock⟩ := Option.isSome_iff_exists.mp hb
    exact hg.mem_blockIds hblock

/-- Of the edges of the graph, those out of one block. -/
theorem filter_edges (hb : (g.block? b).isSome) :
    (g.edges.filter fun e => e.source = b) = g.successors b := by
  have hedges : g.edges = (g.blocks.toList.map Block.id).flatMap g.successors := by
    rw [edges, List.flatMap_map]
    refine List.flatMap_congr fun block hblock => ?_
    rw [successors, hg.mem_blocks_iff.mp (Array.mem_toList_iff.mp hblock)]
  rw [hedges, List.filter_flatMap]
  have hself : ((g.successors b).filter fun e => e.source = b) = g.successors b :=
    List.filter_eq_self.mpr fun e he => by simpa using (hg.mem_successors.mp he).2
  refine (flatMap_of_nodup (nodup_blockIds hg.block_id) (hg.mem_blockIds_iff.mpr hb)
    fun c hc => ?_).trans hself
  refine List.filter_eq_nil_iff.mpr fun e he => ?_
  simp [(hg.mem_successors.mp he).2, hc]

/-- The forward walk follows the edges out of a block in the order they were added. -/
theorem onward_forward : g.onward .forward = g.targetsFrom := by
  funext b
  by_cases hb : (g.block? b).isSome
  · rw [targetsFrom, ← hg.filter_edges hb]
    rfl
  · -- no edge leaves what is no block
    have hnone : ∀ e ∈ g.edges, e.source ≠ b := by
      rintro e he rfl
      exact hb (hg.ends e he).1
    have hedges : (g.edges.filter fun e => e.source = b) = [] :=
      List.filter_eq_nil_iff.mpr fun e he => by simpa using hnone e he
    have hsuccessors : g.successors b = [] := by
      refine List.eq_nil_iff_forall_not_mem.mpr fun e he => ?_
      exact hnone e (hg.mem_successors.mp he).1 (hg.mem_successors.mp he).2
    rw [targetsFrom, hsuccessors]
    exact congrArg (List.map Edge.target) hedges

/-! ## The two orders -/

theorem mem_others {reached : List BlockId} :
    b ∈ g.others reached ↔ (g.block? b).isSome ∧ b ∉ reached := by
  rw [others, List.mem_filter, hg.mem_blockIds_iff, decide_eq_true_eq]

/-- The reached blocks, in whichever order, and the others are each block once. -/
theorem count_append_others {reached : List BlockId}
    (hreached : reached.Perm (g.finishedOf .forward)) (b : BlockId) :
    (reached ++ g.others (g.finishedOf .forward)).count b =
      if (g.block? b).isSome then 1 else 0 := by
  have hothers : (g.others (g.finishedOf .forward)).Nodup := (nodup_blockIds hg.block_id).filter _
  have hnodup : (reached ++ g.others (g.finishedOf .forward)).Nodup := by
    refine List.nodup_append.mpr ⟨hreached.nodup_iff.mpr (hg.nodup_finishedOf _), hothers, ?_⟩
    rintro c hc _ hc' rfl
    exact (hg.mem_others.mp hc').2 (hreached.mem_iff.mp hc)
  have hmem : b ∈ reached ++ g.others (g.finishedOf .forward) ↔ (g.block? b).isSome := by
    rw [List.mem_append, hreached.mem_iff, hg.mem_others]
    by_cases hb : b ∈ g.finishedOf .forward
    · obtain ⟨block, hblock⟩ := hg.exists_block_of_reaches (hg.mem_finishedOf.mp hb)
      simp [hb, hblock]
    · simp [hb]
  rw [hnodup.count]
  exact if_congr hmem rfl rfl

/-- The entry is left last. -/
theorem head?_finishedOf_forward : (g.finishedOf .forward).head? = some g.entry := by
  obtain ⟨block, hblock, -⟩ := Option.map_eq_some_iff.mp hg.entry_kind
  obtain ⟨hpos, -⟩ := Array.getElem?_eq_some_iff.mp hblock
  obtain ⟨depth, hdepth⟩ := Nat.exists_eq_add_of_lt hpos
  rw [Nat.zero_add] at hdepth
  rw [finishedOf, hdepth]
  rfl

theorem depthFirstOrders : g.DepthFirstOrders (g.pointsOf .forward)
    (g.finishedOf .forward ++ g.others (g.finishedOf .forward))
    ((g.finishedOf .forward).reverse ++ g.others (g.finishedOf .forward)) where
  once b := ⟨hg.count_append_others (.refl _) b, hg.count_append_others (List.reverse_perm _) b⟩
  entry_first := by
    rw [List.head?_append, hg.head?_finishedOf_forward]
    rfl
  reached_first := ⟨_, _, rfl, rfl, fun _ => hg.mem_finishedOf,
    (pairwise_blockIds hg.block_id).filter _, hg.onward_forward ▸ hg.turns_finishedOf .forward⟩
  rises e he hsource hpoint := by
    have htail : e.source ∈ g.finishedOf .forward := hg.mem_finishedOf.mpr hsource
    have hhead : e.target ∈ g.finishedOf .forward :=
      (hg.ranks_finishedOf .forward).closed e he htail
    rw [List.idxOf_append_of_mem htail, List.idxOf_append_of_mem hhead]
    refine (hg.ranks_finishedOf .forward).rises e he htail ?_
    rw [← Bool.not_eq_true, Std.ExtTreeSet.contains_iff_mem]
    exact hpoint
  falls b hb := by
    obtain ⟨e, he, hhead, htail, hle⟩ := hg.exists_edge_of_mem_pointsOf hb
    refine ⟨e, he, hhead, htail, ?_⟩
    have hpoint : b ∈ g.finishedOf .forward :=
      hg.mem_finishedOf.mpr (hg.returns_of_mem_pointsOf hb).1
    have hsource : e.source ∈ g.finishedOf .forward := hg.mem_finishedOf.mpr htail
    rw [List.idxOf_append_of_mem hpoint, List.idxOf_append_of_mem hsource]
    exact hle

end WellFormed

end FlowFixpoint.Graph

namespace FlowFixpoint

/-- Every built graph has a reverse postorder and a postorder. They list each block once, the
reached blocks first, as a depth-first walk leaves them, and flow into blocks that are no widening
points goes up in reverse postorder. -/
theorem block_orders_are_depth_first (g : Graph) (hg : g.Built) :
    ∃ points reversePostorder postorder, g.wideningPoints .forward = .ok points ∧
      g.reversePostorder = .ok reversePostorder ∧ g.postorder = .ok postorder ∧
      g.DepthFirstOrders points reversePostorder postorder := by
  have hwf := hg.wellFormed
  refine ⟨_, _, _, hwf.wideningPoints_eq .forward, hwf.blockOrder_forward, ?_, hwf.depthFirstOrders⟩
  rw [Graph.postorder, hwf.finishing_eq]
  rfl

/-- In the irreducible loop one block is put on the stack twice, and one is not reached. -/
theorem irreducibleLoop_depth_first :
    irreducibleLoop.Built ∧ ∃ points, irreducibleLoop.wideningPoints .forward = .ok points ∧
      irreducibleLoop.DepthFirstOrders points
        [⟨0, 0⟩, ⟨0, 3⟩, ⟨0, 4⟩, ⟨0, 5⟩, ⟨0, 6⟩, ⟨0, 1⟩, ⟨0, 2⟩]
        [⟨0, 1⟩, ⟨0, 6⟩, ⟨0, 5⟩, ⟨0, 4⟩, ⟨0, 3⟩, ⟨0, 0⟩, ⟨0, 2⟩] := by
  obtain ⟨points, reversePostorder, postorder, hpoints, hreverse, hpost, horders⟩ :=
    block_orders_are_depth_first irreducibleLoop irreducibleLoop_built
  have hreverse' : irreducibleLoop.reversePostorder.toOption =
      some [⟨0, 0⟩, ⟨0, 3⟩, ⟨0, 4⟩, ⟨0, 5⟩, ⟨0, 6⟩, ⟨0, 1⟩, ⟨0, 2⟩] := by
    decide +kernel
  have hpost' : irreducibleLoop.postorder.toOption =
      some [⟨0, 1⟩, ⟨0, 6⟩, ⟨0, 5⟩, ⟨0, 4⟩, ⟨0, 3⟩, ⟨0, 0⟩, ⟨0, 2⟩] := by
    decide +kernel
  rw [hreverse] at hreverse'
  rw [hpost] at hpost'
  obtain rfl := Option.some.inj hreverse'
  obtain rfl := Option.some.inj hpost'
  exact ⟨irreducibleLoop_built, points, hpoints, horders⟩

end FlowFixpoint
