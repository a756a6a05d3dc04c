/-
# FlowFixpoint.Proofs.FinishingOrder — what depth-first walks leave behind.

A walk from some roots ends with every vertex it has entered finished, and then the finished
vertices are closed under successors. Both rest on the depth: as long as there are no more unseen
vertices than levels left, no walk is cut short.

For the flow of a graph this means that every block which flow can reach is ranked by the finishing
order. An edge between ranked blocks goes up in rank unless its head is a widening point; that is
how widening points are chosen, and nothing else about the order is needed to see that flow cannot
go round without passing one.
-/
import Mathlib.Tactic.Common
import FlowFixpoint.Graph.Order
import FlowFixpoint.Proofs.GraphViews

namespace FlowFixpoint

/-! ## Exploring -/

namespace Trail

variable {α : Type} [DecidableEq α] {next : α → List α} {t t' t'' : Trail α} {v : α}

/-- How a walk goes on from one trail to another: everything entered on the way is left again, and
no vertex is left before all its successors have been seen. -/
structure Extends (next : α → List α) (t t' : Trail α) : Prop where
  seen : ∀ x ∈ t.seen, x ∈ t'.seen
  finished : ∀ x ∈ t.finished, x ∈ t'.finished
  /-- What is new is finished. -/
  leaves : ∀ x ∈ t'.seen, x ∈ t.seen ∨ x ∈ t'.finished
  /-- What has been finished on the way has its successors seen. -/
  closes : ∀ x ∈ t'.finished, x ∈ t.finished ∨ ∀ y ∈ next x, y ∈ t'.seen

omit [DecidableEq α] in
theorem Extends.refl (next : α → List α) (t : Trail α) : Extends next t t where
  seen _ h := h
  finished _ h := h
  leaves _ h := .inl h
  closes _ h := .inl h

omit [DecidableEq α] in
theorem Extends.trans (h : Extends next t t') (h' : Extends next t' t'') :
    Extends next t t'' where
  seen x hx := h'.seen x (h.seen x hx)
  finished x hx := h'.finished x (h.finished x hx)
  leaves x hx := by
    rcases h'.leaves x hx with hx | hx
    · exact (h.leaves x hx).imp_right (h'.finished x)
    · exact .inr hx
  closes x hx := by
    rcases h'.closes x hx with hx | hx
    · exact (h.closes x hx).imp_right fun hnext y hy => h'.seen y (hnext y hy)
    · exact .inr hx

/-- The vertices among `all` that have not been seen. -/
def unseen (all : List α) (t : Trail α) : List α := all.filter fun x => x ∉ t.seen

theorem unseen_length_le {all : List α} (h : ∀ x ∈ t.seen, x ∈ t'.seen) :
    (unseen all t').length ≤ (unseen all t).length := by
  refine List.Sublist.length_le (List.monotone_filter_right all ?_)
  intro x hx
  simp only [decide_eq_true_eq] at hx ⊢
  exact fun hseen => hx (h x hseen)

/-- Entering a vertex leaves fewer unseen ones. -/
theorem unseen_length_lt {all : List α} (hv : v ∈ all) (hfresh : v ∉ t.seen) :
    (unseen all { t with seen := v :: t.seen }).length < (unseen all t).length := by
  have hsub : unseen all { t with seen := v :: t.seen } = (unseen all t).filter fun x => x ≠ v := by
    simp only [unseen, List.filter_filter]
    refine List.filter_congr fun x _ => ?_
    simp [List.mem_cons, not_or]
  rw [hsub]
  refine List.length_filter_lt_length_iff_exists.mpr ⟨v, ?_, by simp⟩
  simp [unseen, hv, hfresh]

/-- Exploring from several vertices, given what exploring from one does. -/
theorem extends_foldl {depth : Nat} {all : List α}
    (h : ∀ (t : Trail α) (v : α), v ∈ all → (unseen all t).length ≤ depth →
      Extends next t (explore next depth t v) ∧ v ∈ (explore next depth t v).seen)
    (vs : List α) (hvs : ∀ v ∈ vs, v ∈ all) (t : Trail α)
    (hdepth : (unseen all t).length ≤ depth) :
    Extends next t (vs.foldl (explore next depth) t) ∧
      ∀ v ∈ vs, v ∈ (vs.foldl (explore next depth) t).seen := by
  induction vs generalizing t with
  | nil => exact ⟨.refl next t, by simp⟩
  | cons v vs ih =>
    obtain ⟨hv, hvs⟩ := List.forall_mem_cons.mp hvs
    obtain ⟨hfirst, hseen⟩ := h t v hv hdepth
    obtain ⟨hrest, hall⟩ := ih hvs (explore next depth t v)
      (Nat.le_trans (unseen_length_le hfirst.seen) hdepth)
    exact ⟨hfirst.trans hrest, List.forall_mem_cons.mpr ⟨hrest.seen v hseen, hall⟩⟩

/-- A walk that has as many levels left as there are unseen vertices is not cut short. -/
theorem extends_explore {all : List α} (hall : ∀ x ∈ all, ∀ y ∈ next x, y ∈ all) (depth : Nat)
    (t : Trail α) (v : α) (hv : v ∈ all) (hdepth : (unseen all t).length ≤ depth) :
    Extends next t (explore next depth t v) ∧ v ∈ (explore next depth t v).seen := by
  induction depth generalizing t v with
  | zero =>
    have hnone : v ∉ unseen all t := by
      rw [List.length_eq_zero_iff.mp (Nat.le_zero.mp hdepth)]
      exact List.not_mem_nil
    have hseen : v ∈ t.seen := by
      simpa [unseen, hv] using hnone
    exact ⟨.refl next t, hseen⟩
  | succ depth ih =>
    rw [explore]
    split
    · next hseen => exact ⟨.refl next t, hseen⟩
    · next hfresh =>
      -- one level less is left below `v`, and one unseen vertex less
      have hlt := unseen_length_lt hv hfresh
      obtain ⟨hext, hnext⟩ := extends_foldl ih (next v) (hall v hv)
        { t with seen := v :: t.seen } (by omega)
      have hself := hext.seen v List.mem_cons_self
      refine ⟨⟨?_, ?_, ?_, ?_⟩, hself⟩
      · exact fun x hx => hext.seen x (List.mem_cons_of_mem v hx)
      · exact fun x hx => List.mem_cons_of_mem v (hext.finished x hx)
      · intro x hx
        rcases hext.leaves x hx with hx | hx
        · -- `v` itself is new below, and is finished last
          rcases List.mem_cons.mp hx with rfl | hx
          · exact .inr List.mem_cons_self
          · exact .inl hx
        · exact .inr (List.mem_cons_of_mem v hx)
      · intro x hx
        rcases List.mem_cons.mp hx with rfl | hx
        · exact .inr hnext
        · exact hext.closes x hx

/-- The vertices that a walk from the roots finishes: the roots, and with a vertex its successors. -/
theorem ofRoots_finished {all roots : List α} (hall : ∀ x ∈ all, ∀ y ∈ next x, y ∈ all)
    (hroots : ∀ v ∈ roots, v ∈ all) {depth : Nat} (hdepth : all.length ≤ depth) :
    (∀ v ∈ roots, v ∈ (ofRoots next depth roots).finished) ∧
      ∀ x ∈ (ofRoots next depth roots).finished, ∀ y ∈ next x,
        y ∈ (ofRoots next depth roots).finished := by
  obtain ⟨hext, hseen⟩ := extends_foldl (extends_explore hall depth) roots hroots {}
    (Nat.le_trans (List.length_filter_le _ _) hdepth)
  -- nothing was seen at first, so everything seen in the end is finished
  have hdone : ∀ x ∈ (ofRoots next depth roots).seen,
      x ∈ (ofRoots next depth roots).finished := fun x hx =>
    (hext.leaves x hx).resolve_left List.not_mem_nil
  refine ⟨fun v hv => hdone v (hseen v hv), fun x hx y hy => hdone y ?_⟩
  exact (hext.closes x hx).resolve_left List.not_mem_nil y hy

end Trail

/-! ## Ranks of blocks -/

namespace Graph

/-- A finishing order ranks the blocks that flow reaches, and flow goes up in rank except into
widening points. -/
structure Ranks (g : Graph) (d : Direction) (points : Std.ExtTreeSet BlockId)
    (finished : List BlockId) : Prop where
  starts : ∀ b ∈ d.starts g, b ∈ finished
  closed : ∀ e ∈ g.edges, d.tail e ∈ finished → d.head e ∈ finished
  rises : ∀ e ∈ g.edges, d.tail e ∈ finished → points.contains (d.head e) = false →
    finished.idxOf (d.tail e) < finished.idxOf (d.head e)

/-- The flow of a graph without stray blocks. -/
def flowOf (g : Graph) (d : Direction) : FlowGraph where
  starts := d.starts g
  arcs := g.edges.map fun e => (d.tail e, d.head e)

/-- The finishing order of the walk that follows the flow. -/
def finishedOf (g : Graph) (d : Direction) : List BlockId :=
  (Trail.ofRoots (g.flowOf d).next g.blocks.size (d.starts g)).finished

/-- The heads of the edges that do not go up in the finishing order. -/
def pointsOf (g : Graph) (d : Direction) : Std.ExtTreeSet BlockId :=
  .ofList (((g.flowOf d).arcs.filter (retreats (g.finishedOf d))).map Prod.snd)

theorem mem_next_flowOf {g : Graph} {d : Direction} {b c : BlockId} :
    c ∈ (g.flowOf d).next b ↔ ∃ e ∈ g.edges, d.tail e = b ∧ d.head e = c := by
  simp [FlowGraph.next, flowOf]

namespace WellFormed

variable {g : Graph} (hg : g.WellFormed)

include hg

theorem mem_blockIds {b : BlockId} {block : Block} (h : g.block? b = some block) :
    b ∈ g.blocks.toList.map Block.id := by
  obtain ⟨-, hget⟩ := block?_eq_some_iff.mp h
  rw [List.mem_map]
  exact ⟨block, Array.mem_toList_iff.mpr (Array.mem_of_getElem? hget), hg.id_of_block? h⟩

/-- Flow has no stray blocks. -/
theorem flow_eq (d : Direction) : g.flow d = .ok (g.flowOf d) := by
  have hnone : g.strayAmong? (d.starts g ++
      (g.edges.map fun e => (d.tail e, d.head e)).flatMap fun arc => [arc.1, arc.2]) =
        none := by
    refine List.find?_eq_none.mpr fun b hb => ?_
    suffices hblock : ∃ block, g.block? b = some block by
      obtain ⟨block, hblock⟩ := hblock
      simp [hblock]
    rcases List.mem_append.mp hb with hstart | harc
    · obtain ⟨block, _, hblock, -⟩ := hg.kind_of_starts hstart
      exact ⟨block, hblock⟩
    · obtain ⟨_, hmem, hend⟩ := List.mem_flatMap.mp harc
      obtain ⟨e, he, rfl⟩ := List.mem_map.mp hmem
      rcases List.mem_pair.mp hend with rfl | rfl
      · exact hg.exists_block_tail d he
      · exact hg.exists_block_head d he
  simp only [flow, hnone]
  rfl

theorem finishing_eq (d : Direction) : g.finishing d = .ok (g.finishedOf d) := by
  rw [finishing, hg.flow_eq]
  rfl

theorem wideningPoints_eq (d : Direction) : g.wideningPoints d = .ok (g.pointsOf d) := by
  rw [wideningPoints, hg.flow_eq, hg.finishing_eq]
  rfl

theorem blockOrder_forward : g.blockOrder .forward =
    .ok (g.finishedOf .forward ++ g.others (g.finishedOf .forward)) := by
  rw [blockOrder, reversePostorder, hg.finishing_eq]
  rfl

theorem exists_blockOrder (d : Direction) : ∃ order, g.blockOrder d = .ok order := by
  cases d with
  | forward => exact ⟨_, hg.blockOrder_forward⟩
  | backward => exact ⟨_, by rw [blockOrder, postorder, hg.finishing_eq]; rfl⟩

/-- Flow stays among the blocks of the graph. -/
theorem blockIds_closed (d : Direction) : ∀ b ∈ g.blocks.toList.map Block.id,
    ∀ c ∈ (g.flowOf d).next b, c ∈ g.blocks.toList.map Block.id := by
  intro b _ c hc
  obtain ⟨e, he, -, rfl⟩ := mem_next_flowOf.mp hc
  obtain ⟨block, hblock⟩ := hg.exists_block_head d he
  exact hg.mem_blockIds hblock

theorem starts_mem_blockIds (d : Direction) :
    ∀ b ∈ d.starts g, b ∈ g.blocks.toList.map Block.id := by
  intro b hb
  obtain ⟨block, _, hblock, -⟩ := hg.kind_of_starts hb
  exact hg.mem_blockIds hblock

/-- In the finishing order all flow into blocks that are no widening points goes up. -/
theorem ranks_finishedOf (d : Direction) : g.Ranks d (g.pointsOf d) (g.finishedOf d) := by
  have hdepth : (g.blocks.toList.map Block.id).length ≤ g.blocks.size := by simp
  obtain ⟨hstarts, hnext⟩ :=
    Trail.ofRoots_finished (hg.blockIds_closed d) (hg.starts_mem_blockIds d) hdepth
  have hclosed : ∀ e ∈ g.edges, d.tail e ∈ g.finishedOf d → d.head e ∈ g.finishedOf d :=
    fun e he htail => hnext _ htail _ (mem_next_flowOf.mpr ⟨e, he, rfl, rfl⟩)
  refine ⟨hstarts, hclosed, ?_⟩
  intro e he htail hpoint
  -- an edge that does not go up retreats, which makes its head a widening point
  by_contra hfalls
  have hretreats : retreats (g.finishedOf d) (d.tail e, d.head e) = true := by
    simp [retreats, htail, hclosed e he htail, Nat.not_lt.mp hfalls]
  have harc : (d.tail e, d.head e) ∈ (g.flowOf d).arcs :=
    List.mem_map.mpr ⟨e, he, rfl⟩
  have hhead : d.head e ∈ ((g.flowOf d).arcs.filter (retreats (g.finishedOf d))).map Prod.snd :=
    List.mem_map.mpr ⟨_, List.mem_filter.mpr ⟨harc, hretreats⟩, rfl⟩
  rw [pointsOf, Std.ExtTreeSet.contains_ofList] at hpoint
  simp [hhead] at hpoint

end WellFormed

end Graph

end FlowFixpoint
