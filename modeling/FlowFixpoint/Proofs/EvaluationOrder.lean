/-
# FlowFixpoint.Proofs.EvaluationOrder — constant propagation ends where operands come first.

Constant propagation is not monotone: a local that is not bound yet reads as unknown, and a test
refines a local only while its other side is known. Recorded values go up and down, and every change
makes blocks pending. What ends a run is the order of evaluation. If the nodes can be listed such
that each comes after its operands and after the nodes before it in its block, then, once the inputs
have stopped changing, the values settle one after the other in this order: the walk up to a node
reads none but nodes that come before it.

Loops do not matter, since nothing is asked of the order in which blocks follow each other.
-/
import FlowFixpoint.Proofs.DepthFirstOrder
import FlowFixpoint.Proofs.Settling
import FlowFixpoint.Proofs.StaleReads

namespace FlowFixpoint

open Filter

variable {V S : Type}

/-- A list of the nodes in which each comes after its operands and after the nodes before it in its
block. -/
structure Graph.EvaluationOrder (g : Graph) (order : List NodeId) : Prop where
  nodup : order.Nodup
  all : ∀ n ∈ g.nodes, n.id ∈ order
  operands : ∀ n ∈ g.nodes, ∀ m ∈ n.kind.operands, order.idxOf m < order.idxOf n.id
  blocks : ∀ b pre n post, g.nodesOf b = pre ++ n :: post → ∀ k ∈ pre,
    order.idxOf k.id < order.idxOf n.id

/-! ## Walks with the same readings -/

/-- Two walks from the same input yield the same if their tables agree on what the nodes read. -/
theorem Analysis.ReadsOnly.through_agree [DecidableEq V] {a : Analysis V S}
    {reads : NodeKind → List NodeId} (ha : a.ReadsOnly reads) (g : Graph) {f f' : Findings V S}
    (input : Flow S) {read : List NodeId} (hagree : ∀ m ∈ read, f.values[m]? = f'.values[m]?)
    {ns : List Node} (hreads : ∀ n ∈ ns, ∀ m ∈ reads n.kind, m ∈ read) :
    (Walk.through g a f input ns).last = (Walk.through g a f' input ns).last ∧
      ∀ m ∈ read, (Walk.through g a f input ns).findings.values[m]? =
        (Walk.through g a f' input ns).findings.values[m]? := by
  induction ns using List.reverseRecOn with
  | nil => exact ⟨rfl, hagree⟩
  | append_singleton ns n ih =>
    obtain ⟨hlast, hvalues⟩ := ih fun k hk => hreads k (by simp [hk])
    have hnext : (Walk.through g a f input (ns ++ [n])).last =
        (Walk.through g a f' input (ns ++ [n])).last := by
      rw [Walk.through_concat, Walk.step_last, Walk.through_concat, Walk.step_last, hlast]
      exact ha.agree g _ _ _ _ n _ fun m hm => hvalues m (hreads n (by simp) m hm)
    refine ⟨hnext, fun m hm => ?_⟩
    rw [Walk.through_concat, Walk.through_concat] at hnext ⊢
    rw [Walk.step_values, Walk.step_values, hnext, hvalues m hm]

namespace Setup

variable [Store S] [DecidableEq S] [DecidableEq V] {s : Setup V S} {f : ℕ → Pass V S}
  {v : ℕ → BlockId} {reads : NodeKind → List NodeId}

/-- Once the inputs have stopped changing, a node settles after everything has that is read on the
way to it. -/
theorem Endless.settles_of_reads (h : s.Endless f v) (hforward : s.analysis.direction = .forward)
    (ha : s.analysis.ReadsOnly reads)
    (hcalm : AllCalm f) {b : BlockId} {pre post : List Node} {n : Node}
    (hsplit : s.graph.nodesOf b = pre ++ n :: post)
    (hreads : ∀ k ∈ pre ++ [n], ∀ m ∈ reads k.kind, Settles f m) : Settles f n.id := by
  let read := (pre ++ [n]).flatMap fun k => reads k.kind
  have hread : ∀ m ∈ read, Settles f m := by
    intro m hm
    obtain ⟨k, hk, hmk⟩ := List.mem_flatMap.mp hm
    exact hreads k hk m hmk
  obtain ⟨N, hN⟩ := exists_settled hread
  refine h.settles_of_walks hforward ha hcalm hsplit (N := N) ?_
  intro i j input hi hj _ _
  have hsame := ha.through_agree s.graph input (hN i j hi hj)
    fun k hk m hm => List.mem_flatMap.mpr ⟨k, hk, hm⟩
  rw [hsame.1]

/-- In an evaluation order all nodes settle, one after the other. -/
theorem Endless.settles_of_order (h : s.Endless f v) (hforward : s.analysis.direction = .forward)
    (ha : s.analysis.ReadsOnly reads) (hoperands : ∀ kind, reads kind ⊆ kind.operands)
    (hcalm : AllCalm f) {order : List NodeId} (horder : s.graph.EvaluationOrder order)
    (m : NodeId) : Settles f m := by
  have hg := h.starts.wellFormed
  induction hrank : order.idxOf m using Nat.strong_induction_on generalizing m with
  | _ rank ih =>
    subst hrank
    refine h.settles_of_listed ?_
    rintro b pre n post hsplit rfl
    refine h.settles_of_reads hforward ha hcalm hsplit ?_
    intro k hk m hm
    have hmem : k ∈ s.graph.nodes := by
      have hlisted : k ∈ s.graph.nodesOf b := by
        rw [hsplit, List.append_cons]
        exact List.mem_append_left post hk
      obtain ⟨-, hnode⟩ := hg.block_of_mem_nodesOf hlisted
      exact Array.mem_of_getElem? (Graph.node?_eq_some_iff.mp hnode).2
    have hbefore : order.idxOf m < order.idxOf k.id :=
      horder.operands k hmem m (hoperands k.kind hm)
    have hnotAfter : order.idxOf k.id ≤ order.idxOf n.id := by
      rcases List.mem_append.mp hk with hk | hk
      · exact (horder.blocks b pre n post hsplit k hk).le
      · rw [List.mem_singleton.mp hk]
    exact ih _ (by omega) m rfl

end Setup

/-! ## Constant propagation -/

namespace Constants

theorem reads_subset_operands (kind : NodeKind) : reads kind ⊆ kind.operands := by
  unfold reads
  split <;> simp [NodeKind.operands]

theorem mem_locals_of_refinement? {scene : Scene Constant} {l r : NodeId} {x : LocalVar}
    {k : Constant} (h : refinement? scene l r = some (x, k)) : x ∈ scene.graph.locals := by
  unfold refinement? at h
  split at h
  · next hread _ =>
    cases h
    exact Graph.mem_locals_of_localRead? hread
  · split at h
    · next hread _ =>
      cases h
      exact Graph.mem_locals_of_localRead? hread
    · cases h

/-- No store binds any but the locals of the graph. -/
theorem keeps (g : Graph) : analysis.Keeps g (Env.Within g.locals) where
  seeds b store hseed := by
    obtain ⟨-, rfl⟩ := Prod.mk.inj (List.mem_singleton.mp hseed)
    exact Env.within_parameters g Flat.top
  joins _ _ hx hy := hx.join hy
  transfer scene n φ hgraph hnode hφ := by
    have hregular : φ.regular.Within g.locals := hφ.regular fun _ _ hx hy => hx.join hy
    have hsingle : ∀ value : Option Constant,
        (Outcome.single value φ.regular).All (Env.Within g.locals) :=
      fun _ => Outcome.all_of_flow (Flow.all_single hregular)
    have hequality : ∀ equalOn l r, (equality scene equalOn l r φ).All (Env.Within g.locals) := by
      intro equalOn l r
      unfold equality
      split
      · exact hsingle none
      · next x k hrefines =>
        have hx : x ∈ g.locals := hgraph ▸ mem_locals_of_refinement? hrefines
        cases equalOn with
        | true => exact Outcome.all_of_flow (Flow.all_split ((hφ true).set hx _) (hφ false))
        | false => exact Outcome.all_of_flow (Flow.all_split (hφ true) ((hφ false).set hx _))
    obtain ⟨id, block, kind, trees⟩ := n
    cases kind with
    | localRead x => exact Outcome.all_of_flow hφ
    | assignment x m =>
      have hx : x ∈ g.locals := Graph.mem_locals_of_node hnode rfl
      exact Outcome.all_of_flow (Flow.all_single (hregular.set hx _))
    | comparison op left right =>
      cases op with
      | equal => exact hequality true left right
      | notEqual => exact hequality false left right
      | less | lessOrEqual | greater | greaterOrEqual => exact hsingle none
    | literal value => cases value <;> exact hsingle _
    | declaration | arithmetic | logical | not | minus | fieldRead | call | creation | ret
    | throwing | marker => exact hsingle _

/-- Constant propagation ends on every graph with an evaluation order, whatever its loops; one
number of visits is enough for all settings. -/
theorem terminates_of_evaluation_order (g : Graph) (hg : g.Built) (order : List NodeId)
    (horder : g.EvaluationOrder order) :
    ∃ enough, ∀ settings : Settings, enough ≤ settings.maxVisits →
      ∃ p, analysis.solve settings g = .ok p := by
  refine Analysis.exists_enough_of_settles rfl (Flat.height.env g.locals) hg.wellFormed (keeps g) ?_
  rintro s f v rfl hanalysis h hcalm
  exact h.settles_of_order (hanalysis ▸ rfl) (hanalysis ▸ readsOnly) reads_subset_operands hcalm
    horder

/-! ## Counting up to a test -/

/-- Counts `x` up from 0 until it is 3. The test of block 4 refines `x`, block 6 counts. -/
def countingLoop : Graph :=
  .ofSteps (.loose "")
    [.addBlock .regular, .addBlock .regular, .addBlock .conditional, .addBlock .regular,
      .push ⟨0, 3⟩ (.literal (.integer 0)), .push ⟨0, 3⟩ (.assignment ⟨"x"⟩ ⟨0, 0⟩),
      .push ⟨0, 4⟩ (.localRead ⟨"x"⟩), .push ⟨0, 4⟩ (.literal (.integer 3)),
      .push ⟨0, 4⟩ (.comparison .equal ⟨0, 2⟩ ⟨0, 3⟩),
      .push ⟨0, 6⟩ (.localRead ⟨"x"⟩), .push ⟨0, 6⟩ (.literal (.integer 1)),
      .push ⟨0, 6⟩ (.arithmetic .add ⟨0, 5⟩ ⟨0, 6⟩), .push ⟨0, 6⟩ (.assignment ⟨"x"⟩ ⟨0, 7⟩),
      .addEdge ⟨0, 0⟩ ⟨0, 3⟩ .unconditional, .addEdge ⟨0, 3⟩ ⟨0, 4⟩ .unconditional,
      .addEdge ⟨0, 4⟩ ⟨0, 5⟩ .unconditional, .addEdge ⟨0, 5⟩ ⟨0, 1⟩ .onTrue,
      .addEdge ⟨0, 5⟩ ⟨0, 6⟩ .onFalse, .addEdge ⟨0, 6⟩ ⟨0, 4⟩ .unconditional]

theorem countingLoop_built : countingLoop.Built := Graph.built_ofSteps (by decide +kernel)

theorem countingLoop_evaluationOrder :
    countingLoop.EvaluationOrder ((List.range 9).map (NodeId.mk 0)) where
  nodup := by decide +kernel
  all := by decide +kernel
  operands := by decide +kernel
  blocks b pre n post hsplit := by
    refine countingLoop_built.wellFormed.forall_nodesOf (P := fun _ pre n _ => ∀ k ∈ pre,
      ((List.range 9).map (NodeId.mk 0)).idxOf k.id <
        ((List.range 9).map (NodeId.mk 0)).idxOf n.id) ?_ hsplit
    decide +kernel

/-- Counting ends, although it goes round a loop. -/
theorem countingLoop_terminates :
    countingLoop.Built ∧ countingLoop.EvaluationOrder ((List.range 9).map (NodeId.mk 0)) ∧
      ¬ countingLoop.Acyclic .forward ∧
      ∃ enough, ∀ settings : Settings, enough ≤ settings.maxVisits →
        ∃ p, analysis.solve settings countingLoop = .ok p :=
  ⟨countingLoop_built, countingLoop_evaluationOrder,
    countingLoop_built.wellFormed.acyclic_iff.not.mpr (by decide +kernel),
    terminates_of_evaluation_order countingLoop countingLoop_built _ countingLoop_evaluationOrder⟩

end Constants

end FlowFixpoint
