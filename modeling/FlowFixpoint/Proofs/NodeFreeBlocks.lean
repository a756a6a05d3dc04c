/-
# FlowFixpoint.Proofs.NodeFreeBlocks — nothing is added between blocks without nodes.

A block without nodes passes on what has arrived, and inputs only climb. So all that earlier visits
of such a block have sent along an edge is at or below what its last visit has sent, which is what
its recorded input amounts to on that edge. Where all blocks that flow into a block are without
nodes, the join of everything that ever arrived is therefore the join of the last of it: one store,
which the recorded inputs determine edge by edge, whatever loops flow has gone round.
-/
import FlowFixpoint.Proofs.ReportReach
import FlowFixpoint.Proofs.Settling

namespace FlowFixpoint

variable {V S : Type}

/-! ## Along an edge -/

namespace Flow

/-- The store that a flow amounts to on an edge: that of the outcome the edge is taken on, or one
store for both. -/
def along [Join S] (φ : Flow S) : EdgeLabel → S
  | .onTrue => φ.onTrue
  | .onFalse => φ.onFalse
  | .unconditional | .exception _ => φ.regular

variable [Store S] [LawfulJoin S]

theorem regular_mono {φ ψ : Flow S} (h : Below φ ψ) : Below φ.regular ψ.regular := by
  obtain ⟨-, hside⟩ := below_iff.mp h
  rw [regular_eq_join φ, join_below_iff]
  exact ⟨(hside true).trans (side_below_regular ψ true),
    (hside false).trans (side_below_regular ψ false)⟩

theorem along_mono {φ ψ : Flow S} (h : Below φ ψ) (label : EdgeLabel) :
    Below (φ.along label) (ψ.along label) := by
  obtain ⟨-, hside⟩ := below_iff.mp h
  cases label with
  | onTrue => exact hside true
  | onFalse => exact hside false
  | unconditional | exception _ => exact regular_mono h

end Flow

theorem joinAll_map_single [Store S] (stores : List S) :
    joinAll (stores.map Flow.single) = (joinAll stores).map .single :=
  joinAll_map (fun _ _ => rfl) stores

/-- What the flow recorded for the sources of the edges into a block amounts to there: the join of
the stores, edge by edge. -/
def Pass.inflow [Join S] (p : Pass V S) (g : Graph) (b : BlockId) : Option S :=
  joinAll ((g.predecessors b).filterMap fun e => (p.input? e.source).map fun φ => φ.along e.label)

/-- The block holds no nodes. -/
def Graph.NodeFree (g : Graph) (b : BlockId) : Prop :=
  ∀ block, g.block? b = some block → block.nodes = []

theorem Graph.NodeFree.nodesOf {g : Graph} {b : BlockId} (h : g.NodeFree b) :
    g.nodesOf b = [] := by
  refine List.eq_nil_iff_forall_not_mem.mpr fun n hn => ?_
  obtain ⟨block, hblock, m, hm, -⟩ := mem_nodesOf.mp hn
  rw [h block hblock] at hm
  exact List.not_mem_nil hm

/-- No nodes stand where flow starts. -/
theorem Graph.WellFormed.nodeFree_of_starts {g : Graph} (hg : g.WellFormed) {d : Direction}
    {b : BlockId} (hb : b ∈ d.starts g) : g.NodeFree b := by
  intro block hblock
  obtain ⟨block', kind, hblock', hkind⟩ := hg.kind_of_starts hb
  obtain rfl : block = block' := by simpa [hblock] using hblock'
  have hform := hg.hasForm hblock
  rw [hkind] at hform
  exact List.eq_nil_of_length_eq_zero hform.nodes_of_special

namespace Setup

/-- Forward, what arrives at a block without nodes leaves it as one store, unless it is split and the
edge does not ask for an outcome. -/
theorem sentForward_keep [Store S] {φ : Flow S} {label : EdgeLabel} (kind : BlockKind)
    (h : label = .unconditional → φ.isSplit = false) :
    Outcome.sentForward (V := V) (.keep none φ) label kind = .single (φ.along label) := by
  cases label with
  | onTrue | onFalse | exception _ => rfl
  | unconditional =>
    cases φ with
    | single store =>
      show (if kind = .conditional then Flow.single store else .single store) = .single store
      exact ite_self _
    | split t f => cases h rfl

variable [Store S] [DecidableEq S] [DecidableEq V] [LawfulJoin S] [PlainWidening S]
  {s : Setup V S} {start p q : Pass V S} {visits : List (BlockId × Pass V S)} {b : BlockId}
  {e : Edge}

/-- Flow is never split where it takes an unconditional edge. -/
theorem Starts.isSplit_of_unconditional (hs : s.Starts start) (h : s.Reached start p)
    (he : e ∈ s.graph.edges) (hlabel : e.label = .unconditional) {φ : Flow S}
    (hφ : p.input? e.source = some φ) : φ.isSplit = false := by
  by_contra hsplit
  obtain ⟨block, hblock, hkind⟩ := Option.map_eq_some_iff.mp
    ((hs.about h).splits e.source φ hφ (by simpa using hsplit))
  have hbranches := hs.wellFormed.label_of_conditional hblock hkind he rfl
  simp [hlabel] at hbranches

/-- A visit of a block without nodes sends along an edge what its input amounts to there. -/
theorem Starts.sentAlong_of_nodeFree (hs : s.Starts start) (h : s.Reached start q)
    (he : e ∈ s.graph.edges) (hfree : s.graph.NodeFree e.source) :
    s.sentAlong q e = (q.input? e.source).map fun φ => .single (φ.along e.label) := by
  obtain ⟨block, hblock⟩ := hs.wellFormed.exists_block_target he
  cases hφ : q.input? e.source with
  | none => simp [sentAlong, hφ]
  | some φ =>
    have hpassed : s.graph.passedNodes s.analysis.direction e.source = [] := by
      refine List.eq_nil_iff_forall_not_mem.mpr fun n hn => ?_
      simpa [hfree.nodesOf] using Graph.mem_passedNodes.mp hn
    have hlast : (s.walkOf e.source q φ).last = .keep none φ := by
      rw [walkOf, hpassed]
      rfl
    have hsent : Outcome.sentForward (V := V) (.keep none φ) e.label block.kind =
        .single (φ.along e.label) :=
      sentForward_keep block.kind fun hlabel => hs.isSplit_of_unconditional h he hlabel hφ
    simp [sentAlong, leaving, hφ, hblock, hlast, hsent]

/-- Where blocks without nodes flow into a block and none of them is pending, its input is what
their inputs amount to there. -/
theorem History.input?_eq_inflow (hs : s.Starts start) (hforward : s.analysis.direction = .forward)
    (h : s.History start visits p) (hb : b ≠ s.graph.entry)
    (hfree : ∀ e ∈ s.graph.predecessors b, s.graph.NodeFree e.source ∧ ¬ p.IsPending e.source) :
    p.input? b = (p.inflow s.graph b).map .single := by
  rw [h.input?_of_ne_entry hforward hs hb, Pass.inflow, ← joinAll_map_single]
  apply joinAll_eq_of_bounded
  · -- what an earlier visit has sent is at or below what is recorded now
    intro ψ hψ
    obtain ⟨⟨source, q⟩, hq, e, he, rfl, htarget, hsent⟩ := (mem_arrivals hs.wellFormed).mp hψ
    have hpred : e ∈ s.graph.predecessors b := hs.wellFormed.mem_predecessors.mpr ⟨he, htarget⟩
    rw [hs.sentAlong_of_nodeFree (h.reached_of_mem hq) he (hfree e hpred).1] at hsent
    obtain ⟨φ, hφ, rfl⟩ := Option.map_eq_some_iff.mp hsent
    obtain ⟨now, hnow, hbelow⟩ := h.climbs hforward hs hq hφ
    refine ⟨.single (now.along e.label), ?_, ?_⟩
    · exact List.mem_map_of_mem (List.mem_filterMap.mpr ⟨e, hpred, by simp [hnow]⟩)
    · rw [Flow.below_iff]
      simpa [Flow.isSplit] using Flow.along_mono hbelow e.label
  · -- what is recorded now is what the last visit has found and sent
    intro ψ hψ
    obtain ⟨store, hstore, rfl⟩ := List.mem_map.mp hψ
    obtain ⟨e, hpred, hstore⟩ := List.mem_filterMap.mp hstore
    obtain ⟨φ, hφ, rfl⟩ := Option.map_eq_some_iff.mp hstore
    obtain ⟨he, htarget⟩ := hs.wellFormed.mem_predecessors.mp hpred
    obtain ⟨hnodes, hpending⟩ := hfree e hpred
    obtain ⟨q, later, hlast, hcovered, -⟩ :=
      (covered_of_history hs h e.source φ hφ).resolve_left hpending
    obtain ⟨earlier, rfl⟩ := hlast.split
    refine ⟨.single (φ.along e.label), ?_, Below.refl _⟩
    refine (mem_arrivals hs.wellFormed).mpr ⟨(e.source, q), by simp, e, he, rfl, htarget, ?_⟩
    rw [hs.sentAlong_of_nodeFree (h.reached_of_mem (b := e.source) (by simp)) he hnodes,
      hcovered.arrived]
    rfl

end Setup

/-! ## At the end of a run -/

/-- At the end of a run nothing has been added between blocks without nodes: where all blocks that
flow into a block in reach hold no nodes, its input is one store, the join of what their inputs
amount to on the edges into it. -/
def Analysis.AddsNothingBetween [Store S] [DecidableEq S] [DecidableEq V] (a : Analysis V S)
    (settings : Settings) (g : Graph) : Prop :=
  ∀ p, a.solve settings g = .ok p → ∀ b, g.Reaches .forward b → b ≠ g.entry →
    (∀ e ∈ g.predecessors b, g.NodeFree e.source) →
      ∃ store, p.inflow g b = some store ∧ p.input? b = some (.single store)

/-- A forward analysis with plain joins adds nothing between blocks without nodes. -/
theorem Analysis.addsNothingBetween [Store S] [DecidableEq S] [DecidableEq V] [LawfulJoin S]
    [PlainWidening S] (a : Analysis V S) (hforward : a.direction = .forward) (settings : Settings)
    {g : Graph} (hg : g.WellFormed) : a.AddsNothingBetween settings g := by
  intro p hp b hreach hb hfree
  have hsome : (p.input? b).isSome := (complete_of_solve hg hp).inputs b (hforward ▸ hreach)
  obtain ⟨s, start, hprepare, hreached, hempty⟩ := solve_eq_ok hg hp
  obtain ⟨hs, rfl, rfl, -⟩ := starts_of_prepare hg hprepare
  obtain ⟨visits, hvisits⟩ := Setup.exists_history hreached
  have hinput := hvisits.input?_eq_inflow hs hforward hb fun e he => ⟨hfree e he, hempty e.source⟩
  rw [hinput, Option.isSome_map] at hsome
  obtain ⟨store, hstore⟩ := Option.isSome_iff_exists.mp hsome
  exact ⟨store, hstore, by rw [hinput, hstore, Option.map_some]⟩

/-- Constant propagation and nullness add nothing between blocks without nodes. -/
theorem nothing_added_between_node_free_blocks (settings : Settings) (g : Graph) (hg : g.Built) :
    Constants.analysis.AddsNothingBetween settings g ∧
      Nullness.analysis.AddsNothingBetween settings g :=
  ⟨Constants.analysis.addsNothingBetween rfl settings hg.wellFormed,
    Nullness.analysis.addsNothingBetween rfl settings hg.wellFormed⟩

/-- Block 3 tests whether `p` is 3, and the blocks behind it hold no nodes. Block 5 is entered with
`p` known to be 3, and again round the loop through blocks 7 and 8, into which the other outcome
flows as well. -/
def hollowLoop : Graph :=
  .ofSteps (.lambda [⟨"p"⟩])
    [.addBlock .regular, .addBlock .conditional, .addBlock .regular, .addBlock .regular,
      .addBlock .conditional, .addBlock .regular,
      .push ⟨0, 3⟩ (.localRead ⟨"p"⟩), .push ⟨0, 3⟩ (.literal (.integer 3)),
      .push ⟨0, 3⟩ (.comparison .equal ⟨0, 0⟩ ⟨0, 1⟩),
      .addEdge ⟨0, 0⟩ ⟨0, 3⟩ .unconditional, .addEdge ⟨0, 3⟩ ⟨0, 4⟩ .unconditional,
      .addEdge ⟨0, 4⟩ ⟨0, 5⟩ .onTrue, .addEdge ⟨0, 4⟩ ⟨0, 6⟩ .onFalse,
      .addEdge ⟨0, 5⟩ ⟨0, 7⟩ .unconditional, .addEdge ⟨0, 6⟩ ⟨0, 7⟩ .unconditional,
      .addEdge ⟨0, 7⟩ ⟨0, 8⟩ .onTrue, .addEdge ⟨0, 7⟩ ⟨0, 1⟩ .onFalse,
      .addEdge ⟨0, 8⟩ ⟨0, 5⟩ .unconditional]

theorem hollowLoop_built : hollowLoop.Built := Graph.built_ofSteps (by decide +kernel)

/-- The input of block 5 is the join of the outcome that enters the loop and of what comes round. -/
theorem hollowLoop_adds_nothing :
    hollowLoop.Built ∧
      (∃ p store, Constants.analysis.solve (.default .debug) hollowLoop = .ok p ∧
        p.inflow hollowLoop ⟨0, 5⟩ = some store ∧ p.input? ⟨0, 5⟩ = some (.single store)) ∧
      ∃ p store, Nullness.analysis.solve (.default .debug) hollowLoop = .ok p ∧
        p.inflow hollowLoop ⟨0, 5⟩ = some store ∧ p.input? ⟨0, 5⟩ = some (.single store) := by
  have hreach : hollowLoop.Reaches .forward ⟨0, 5⟩ :=
    hollowLoop_built.wellFormed.mem_finishedOf.mp (by decide +kernel)
  have hfree : ∀ e ∈ hollowLoop.predecessors ⟨0, 5⟩, hollowLoop.NodeFree e.source := by
    have hall : ∀ e ∈ hollowLoop.predecessors ⟨0, 5⟩,
        ∀ block ∈ hollowLoop.block? e.source, block.nodes = [] := by
      decide +kernel
    exact fun e he block hblock => hall e he block hblock
  obtain ⟨p, hp⟩ :=
    exists_eq_ok (x := Constants.analysis.solve (.default .debug) hollowLoop) (by decide +kernel)
  obtain ⟨q, hq⟩ :=
    exists_eq_ok (x := Nullness.analysis.solve (.default .debug) hollowLoop) (by decide +kernel)
  have hboth := nothing_added_between_node_free_blocks (.default .debug) hollowLoop hollowLoop_built
  obtain ⟨store, hstore⟩ := hboth.1 p hp ⟨0, 5⟩ hreach (by decide +kernel) hfree
  obtain ⟨store', hstore'⟩ := hboth.2 q hq ⟨0, 5⟩ hreach (by decide +kernel) hfree
  exact ⟨hollowLoop_built, ⟨p, store, hp, hstore⟩, ⟨q, store', hq, hstore'⟩⟩

end FlowFixpoint
