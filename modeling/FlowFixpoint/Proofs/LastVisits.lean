/-
# FlowFixpoint.Proofs.LastVisits — between two visits, every block is pending or settled.

The worklist invariant of the engine, spelled out edge by edge. Whenever the next block is about to
be taken off the list, a block with an input that is not pending has been visited since its input
last changed, and whatever that last visit produced for an edge is at or below what is recorded where
the edge flows. Forward that is the store of the outcome, the flow as it is, the regular store or the
store of the exception, as the label and the block reached ask for; backward it is the regular store,
held against one outcome of a conditional block and against the whole input of any other.

The store of an exception is kept apart while a block is crossed, and only in exceptional blocks. That
it is the one which the result of the block's node has for the exception is said here as well.

This is about what has been sent, not about what sending again would do: the values that a visit has
read may have changed since.
-/
import FlowFixpoint.Proofs.StaleReads

namespace FlowFixpoint

variable {V S : Type}

/-! ## Edge by edge -/

/-- What a visit ended with is, along an edge with this label, at or below the input recorded for the
block of this kind that the edge flows into. -/
def Direction.Settled [Store S] (d : Direction) (label : EdgeLabel) (kind : BlockKind)
    (last : Outcome V S) (arrived : Flow S) : Prop :=
  match d, label, kind with
  | .forward, .onTrue, _ => Below (.single last.flow.onTrue) arrived
  | .forward, .onFalse, _ => Below (.single last.flow.onFalse) arrived
  | .forward, .unconditional, .conditional => Below last.flow arrived
  | .forward, .unconditional, _ => Below (.single last.flow.regular) arrived
  | .forward, .exception type, _ => Below (.single (last.thrownStore type)) arrived
  | .backward, .onTrue, .conditional => Below last.flow.regular arrived.onTrue
  | .backward, .onFalse, .conditional => Below last.flow.regular arrived.onFalse
  | .backward, _, _ => Below (.single last.flow.regular) arrived

namespace Setup

variable [Store S] {s : Setup V S} {p : Pass V S} {b : BlockId} {block : Block}
  {last : Outcome V S}

/-- A store absorbed by a slot is at or below the side of the input that the slot stands for. -/
theorem side_of_absorbed (hm : s.SlotsMatch p) (hslotted : s.slotted b = true) {outcome : Bool}
    {x : S} (h : p.Absorbed b (.slot outcome x)) :
    ∃ arrived, p.input? b = some arrived ∧ Below x (arrived.side outcome) := by
  obtain ⟨t, ht, hbelow⟩ := h
  obtain ⟨arrived, harrived⟩ := Option.isSome_iff_exists.mp (Slots.flow?_isSome_of_side ht)
  refine ⟨arrived, (hm b hslotted).trans harrived, ?_⟩
  rw [Slots.side_of_flow? harrived ht]
  exact hbelow

/-- An absorbed parcel settles its edge. -/
theorem settled_of_absorbed (hm : s.SlotsMatch p) (hblock : s.graph.block? b = some block)
    {label : EdgeLabel} (h : p.Absorbed b (last.sent s.analysis.direction label block.kind)) :
    ∃ arrived, p.input? b = some arrived ∧
      s.analysis.direction.Settled label block.kind last arrived := by
  cases hd : s.analysis.direction with
  | forward =>
    rw [hd] at h
    obtain ⟨arrived, harrived, hbelow⟩ := h
    refine ⟨arrived, harrived, ?_⟩
    cases label with
    | onTrue | onFalse | exception type => exact hbelow
    | unconditional =>
      cases hkind : block.kind <;> rw [hkind] at hbelow <;> exact hbelow
  | backward =>
    rw [hd] at h
    by_cases hkind : block.kind = .conditional
    · have hslotted : s.slotted b = true := by simp [slotted, hd, hblock, hkind]
      rw [hkind] at h ⊢
      cases label with
      | onTrue => exact side_of_absorbed hm hslotted h
      | onFalse => exact side_of_absorbed hm hslotted h
      | unconditional | exception type => exact h
    · -- without slots the label does not matter
      generalize block.kind = kind at h hkind
      cases kind with
      | conditional => exact absurd rfl hkind
      | regular | exceptional | special kind => cases label <;> exact h

/-! ## What a visit produces -/

/-- What a crossing of a block, made in the state `q` from `input`, produces for an edge into a block
of this kind is read off its last node; for an exception that is the one node of the block. -/
structure Produces (s : Setup V S) (b : BlockId) (q : Pass V S) (input : Flow S) (e : Edge)
    (kind : BlockKind) (c : Crossing V S) : Prop where
  sent : c.sent s.analysis.direction e.label kind = c.last.sent s.analysis.direction e.label kind
  thrown : s.analysis.direction = .forward → ∀ type, e.label = .exception type →
    ∃ n, s.graph.nodesOf b = [n] ∧ c.last = s.analysis.transfer
      { graph := s.graph, values := q.findings.values, replay := false } n input

variable [DecidableEq V]

/-- The crossing that a visit of a block makes, in the state `q` and from `input`. -/
def Crosses (s : Setup V S) (b : BlockId) (q : Pass V S) (input : Flow S) (c : Crossing V S) :
    Prop :=
  ∃ block nodes, s.graph.blockAt b = .ok block ∧
    s.graph.passedBy s.analysis.direction block = .ok nodes ∧
    c = Crossing.through s.graph s.analysis block.kind q.findings input nodes

variable (hg : s.graph.WellFormed) (hblock : s.graph.block? b = some block) (q : Pass V S)
  (input : Flow S)

include hg hblock

theorem crosses_crossingOf : s.Crosses b q input (s.crossingOf b block.kind q input) := by
  refine ⟨block, _, ?_, hg.passedBy_eq s.analysis.direction hblock, rfl⟩
  rw [Graph.blockAt, hblock]

theorem produces_crossingOf {e : Edge} (he : e ∈ s.graph.edges)
    (htail : s.analysis.direction.tail e = b) (kind : BlockKind) :
    s.Produces b q input e kind (s.crossingOf b block.kind q input) where
  sent := by rw [sent_crossingOf hg hblock q input he htail, toWalk_crossingOf]
  thrown hforward type hlabel := by
    rw [hforward] at htail
    obtain ⟨-, n, hn⟩ := hg.nodesOf_of_exception hblock he htail hlabel
    refine ⟨n, hn, ?_⟩
    simp only [toWalk_crossingOf, walkOf, hforward, Graph.passedNodes, hn]
    rfl

end Setup

/-! ## No lost update -/

namespace Analysis

variable [Store S] [DecidableEq V] [DecidableEq S]

/-- Whenever the next block is about to be taken off the list, also if none is left, every block with
an input that is not pending has been visited since its input last changed, and what that visit
produced is settled along every flow edge. -/
def NoLostUpdate (a : Analysis V S) (settings : Settings) (g : Graph) : Prop :=
  ∃ s start, a.prepare settings g = .ok (s, start) ∧
    ∀ visits p, s.History start visits p → ∀ b input, p.input? b = some input →
      ¬ p.IsPending b → ∃ q later c, LastVisit visits b q later ∧ s.Crosses b q input c ∧
        (∀ v ∈ (b, q) :: later, v.2.input? b = some input ∧ v.2.changes b = p.changes b) ∧
        ∀ e ∈ g.edges, a.direction.tail e = b → ∃ target arrived,
          g.block? (a.direction.head e) = some target ∧
          p.input? (a.direction.head e) = some arrived ∧
          s.Produces b q input e target.kind c ∧
          a.direction.Settled e.label target.kind c.last arrived

/-- Where merges are joins, no update is lost. -/
theorem noLostUpdate [LawfulJoin S] [PlainWidening S] (a : Analysis V S) (settings : Settings)
    {g : Graph} (hg : g.WellFormed) : a.NoLostUpdate settings g := by
  obtain ⟨start, hprepare⟩ := a.exists_prepare hg
  obtain ⟨hs, -⟩ := starts_of_prepare hg (hprepare settings)
  refine ⟨_, start, hprepare settings, ?_⟩
  intro visits p hvisits b input hinput hpending
  obtain ⟨q, later, hlast, hcovered, hkept⟩ :=
    (Setup.covered_of_history hs hvisits b input hinput).resolve_left hpending
  obtain ⟨block, hblock⟩ := hs.block_of_input hvisits.reached (b := b) (by simp [hinput])
  refine ⟨q, later, _, hlast, Setup.crosses_crossingOf hg hblock q input, hkept, ?_⟩
  intro e he htail
  obtain ⟨target, htarget⟩ := hg.exists_block_head a.direction he
  have habsorbed := hcovered.absorbed _
    ((Setup.mem_parcelsOf hg).mpr ⟨e, he, htail, target, htarget, rfl⟩) (.inr inferInstance)
  obtain ⟨arrived, harrived, hsettled⟩ := Setup.settled_of_absorbed
    (hs.orderly_of_reached hvisits.reached).slots htarget habsorbed
  refine ⟨target, arrived, htarget, harrived, ?_, ?_⟩
  · exact Setup.produces_crossingOf hg hblock q input he htail target.kind
  · rw [Setup.toWalk_crossingOf]
    exact hsettled

end Analysis

/-- None of the shipped analyses loses an update, on any graph and with any settings. -/
theorem shipped_analyses_lose_no_update (settings : Settings) (g : Graph) (hg : g.Built) :
    Constants.analysis.NoLostUpdate settings g ∧ Nullness.analysis.NoLostUpdate settings g ∧
      LiveLocals.analysis.NoLostUpdate settings g :=
  ⟨Constants.analysis.noLostUpdate settings hg.wellFormed,
    Nullness.analysis.noLostUpdate settings hg.wellFormed,
    LiveLocals.analysis.noLostUpdate settings hg.wellFormed⟩

/-- Block 4 calls a method of what block 3 reads. If that is `null`, block 5 goes on; any other
exception leaves the method. -/
def guardedCall : Graph :=
  .ofSteps (.loose "")
    [.addBlock .regular, .addBlock .exceptional, .addBlock .regular,
      .push ⟨0, 3⟩ (.localRead ⟨"x"⟩), .push ⟨0, 4⟩ (.call (some ⟨0, 0⟩) "m" []),
      .push ⟨0, 5⟩ (.localRead ⟨"x"⟩),
      .addEdge ⟨0, 0⟩ ⟨0, 3⟩ .unconditional, .addEdge ⟨0, 3⟩ ⟨0, 4⟩ .unconditional,
      .addEdge ⟨0, 4⟩ ⟨0, 1⟩ .unconditional,
      .addEdge ⟨0, 4⟩ ⟨0, 5⟩ (.exception Nullness.nullPointerException),
      .addEdge ⟨0, 4⟩ ⟨0, 2⟩ (.exception ⟨"E"⟩), .addEdge ⟨0, 5⟩ ⟨0, 1⟩ .unconditional]

/-- No update is lost round the loop of the stale read, where the reading block is not visited again
after its operand has changed, nor on the ways out of a call that may throw. -/
theorem loop_and_handler_lose_no_update :
    (staleGraph.Built ∧ Constants.analysis.NoLostUpdate (.default .debug) staleGraph ∧
      Nullness.analysis.NoLostUpdate (.default .debug) staleGraph ∧
      LiveLocals.analysis.NoLostUpdate (.default .debug) staleGraph) ∧
    guardedCall.Built ∧ Constants.analysis.NoLostUpdate (.default .release) guardedCall ∧
      Nullness.analysis.NoLostUpdate (.default .release) guardedCall ∧
      LiveLocals.analysis.NoLostUpdate (.default .release) guardedCall := by
  have hcall : guardedCall.Built := Graph.built_ofSteps (by decide +kernel)
  exact ⟨⟨staleGraph_built,
      shipped_analyses_lose_no_update (.default .debug) staleGraph staleGraph_built⟩,
    hcall, shipped_analyses_lose_no_update (.default .release) guardedCall hcall⟩

end FlowFixpoint
