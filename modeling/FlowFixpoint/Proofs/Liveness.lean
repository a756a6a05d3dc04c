/-
# FlowFixpoint.Proofs.Liveness — live locals, exactly.

A local is live at a point if some path on from there comes to a node that uses it, in a block from
which an exit can be reached, before any node that assigns it. `LiveBefore` and `LiveAfter` say so
about the beginning and the end of a block, with no mention of stores or runs. A finished run agrees
with them entirely: the blocks with an input are those from which an exit can be reached, the input
holds exactly what is live at the end of its block, and for a conditional block the two stores are
exact for the two ways out.

That nothing too much is recorded holds of every state of a run (`Within`); that nothing is missing
holds at its end, because every block is covered by its last visit.
-/
import FlowFixpoint.Analyses.LiveLocals
import FlowFixpoint.Proofs.Coverage

namespace FlowFixpoint

/-! ## Paths and live locals -/

namespace Graph

/-- Some path of edges, possibly empty, leads from one block to the other. -/
inductive Leads (g : Graph) (goal : BlockId) : BlockId → Prop
  | here : Leads g goal goal
  | along {e : Edge} : e ∈ g.edges → Leads g goal e.target → Leads g goal e.source

/-- Some path leads to an exit. -/
def ReachesExit (g : Graph) (b : BlockId) : Prop :=
  g.Leads g.regularExit b ∨ g.Leads g.exceptionalExit b

theorem ReachesExit.along {g : Graph} {e : Edge} (he : e ∈ g.edges)
    (h : g.ReachesExit e.target) : g.ReachesExit e.source :=
  h.imp (Leads.along he) (Leads.along he)

/-- The label of the edges for an outcome. -/
def branchLabel (outcome : Bool) : EdgeLabel := if outcome then .onTrue else .onFalse

end Graph

namespace LiveLocals

/-- The node reads the local, or one of its direct operands does. -/
def Uses (g : Graph) (n : Node) (v : LocalVar) : Prop :=
  n.kind = .localRead v ∨ ∃ m ∈ n.kind.operands, g.localRead? m = some v

/-- The local is live at the beginning of the block: a path comes to a use of it before any
assignment, in a block from which an exit can be reached. -/
inductive LiveBefore (g : Graph) (v : LocalVar) : BlockId → Prop
  | here {b : BlockId} {pre post : List Node} {n : Node} :
      g.ReachesExit b → g.nodesOf b = pre ++ n :: post → (∀ k ∈ pre, ¬ k.Assigns v) →
      Uses g n v → LiveBefore g v b
  | later {e : Edge} :
      e ∈ g.edges → (∀ k ∈ g.nodesOf e.source, ¬ k.Assigns v) → LiveBefore g v e.target →
      LiveBefore g v e.source

/-- The local is live at the end of the block, that is, at the beginning of a next one. -/
def LiveAfter (g : Graph) (v : LocalVar) (b : BlockId) : Prop :=
  ∃ e ∈ g.edges, e.source = b ∧ LiveBefore g v e.target

theorem LiveBefore.reachesExit {g : Graph} {v : LocalVar} {b : BlockId}
    (h : LiveBefore g v b) : g.ReachesExit b := by
  induction h with
  | here hexit => exact hexit
  | later he _ _ ih => exact ih.along he

/-! ## Passing the nodes of a block -/

/-- The locals live before some nodes, given those live after them. -/
def beforeAll (g : Graph) (ns : List Node) (after : LiveSet) : LiveSet :=
  ns.foldr (fun n after => before g n.kind after) after

theorem contains_before (g : Graph) (n : Node) (after : LiveSet) (v : LocalVar) :
    (before g n.kind after).contains v = true ↔
      Uses g n v ∨ ¬ n.Assigns v ∧ after.contains v = true := by
  unfold Uses Node.Assigns
  cases n.kind <;>
    simp [before, operandReads, NodeKind.operands, LiveSet.contains_insertAll, or_and_right,
      exists_or]

theorem contains_beforeAll (g : Graph) (ns : List Node) (after : LiveSet) (v : LocalVar) :
    (beforeAll g ns after).contains v = true ↔
      (∃ pre n post, ns = pre ++ n :: post ∧ (∀ k ∈ pre, ¬ k.Assigns v) ∧ Uses g n v) ∨
        (∀ k ∈ ns, ¬ k.Assigns v) ∧ after.contains v = true := by
  induction ns with
  | nil => simp [beforeAll]
  | cons n ns ih =>
    change (before g n.kind (beforeAll g ns after)).contains v = true ↔ _
    rw [contains_before, ih]
    constructor
    · rintro (huses | ⟨hn, ⟨pre, k, post, rfl, hpre, huses⟩ | ⟨hns, hafter⟩⟩)
      · exact .inl ⟨[], n, ns, rfl, by simp, huses⟩
      · exact .inl ⟨n :: pre, k, post, rfl, List.forall_mem_cons.mpr ⟨hn, hpre⟩, huses⟩
      · exact .inr ⟨List.forall_mem_cons.mpr ⟨hn, hns⟩, hafter⟩
    · rintro (⟨pre, k, post, hsplit, hpre, huses⟩ | ⟨hns, hafter⟩)
      · cases pre with
        | nil =>
          cases hsplit
          exact .inl huses
        | cons m pre =>
          cases hsplit
          obtain ⟨hm, hpre⟩ := List.forall_mem_cons.mp hpre
          exact .inr ⟨hm, .inl ⟨pre, k, post, rfl, hpre, huses⟩⟩
      · obtain ⟨hn, hns⟩ := List.forall_mem_cons.mp hns
        exact .inr ⟨hn, .inr ⟨hns, hafter⟩⟩

/-- What leaves a block backward is what is live before its nodes. -/
theorem through_regular (g : Graph) (f : Findings Empty LiveSet) (input : Flow LiveSet)
    (ns : List Node) :
    (Walk.through g analysis f input ns.reverse).last.flow.regular =
      beforeAll g ns input.regular := by
  induction ns with
  | nil => rfl
  | cons n ns ih =>
    rw [List.reverse_cons, Walk.through_concat, Walk.step_last]
    change before g n.kind _ = before g n.kind _
    rw [ih]
    rfl

theorem contains_regular {φ : Flow LiveSet} {v : LocalVar} :
    φ.regular.contains v = true ↔ ∃ outcome, (φ.side outcome).contains v = true := by
  cases φ with
  | single store => simp [Flow.regular]
  | split t f => simp [Flow.regular, Flow.side, Flow.onTrue, Flow.onFalse, or_comm]

/-! ## Nothing too much -/

/-- What a block may be sent. -/
def Fits (g : Graph) (b : BlockId) : Parcel LiveSet → Prop
  | .input φ => g.ReachesExit b ∧
      ∀ outcome v, (φ.side outcome).contains v = true → LiveAfter g v b
  | .slot outcome x => ∃ c, g.successor? b (Graph.branchLabel outcome) = some c ∧
      g.ReachesExit c ∧ ∀ v, x.contains v = true → LiveBefore g v c

/-- The block has an input only if an exit can be reached from it, and its input and its slots hold
live locals only. -/
structure Within (s : Setup Empty LiveSet) (p : Pass Empty LiveSet) (b : BlockId) : Prop where
  reaches : (p.input? b).isSome → s.graph.ReachesExit b
  input : ∀ φ, s.slotted b = false → p.input? b = some φ →
    ∀ outcome v, (φ.side outcome).contains v = true → LiveAfter s.graph v b
  slots : ∀ outcome x, (p.slotsOf b).side outcome = some x → Fits s.graph b (.slot outcome x)

variable {s : Setup Empty LiveSet} {p p' : Pass Empty LiveSet} {b c : BlockId}

theorem Fits.reachesExit {g : Graph} (hg : g.WellFormed) {parcel : Parcel LiveSet}
    (h : Fits g b parcel) : g.ReachesExit b := by
  cases parcel with
  | input φ => exact h.1
  | slot outcome x =>
    obtain ⟨c, hc, hexit, -⟩ := h
    obtain ⟨e, he, rfl, -, rfl⟩ := hg.exists_edge_of_successor? hc
    exact hexit.along he

/-- Whatever is live on a way out of a conditional block is live at its end. -/
theorem Fits.liveAfter {g : Graph} (hg : g.WellFormed) {outcome : Bool} {x : LiveSet}
    (h : Fits g b (.slot outcome x)) {v : LocalVar} (hv : x.contains v = true) :
    LiveAfter g v b := by
  obtain ⟨c, hc, -, hlive⟩ := h
  obtain ⟨e, he, hsource, -, rfl⟩ := hg.exists_edge_of_successor? hc
  exact ⟨e, he, hsource, hlive v hv⟩

/-- Slotted or not, the input holds only what is live at the end of the block. -/
theorem Within.regular (hg : s.graph.WellFormed) (hw : Within s p b) (hm : s.SlotsMatch p)
    {φ : Flow LiveSet} (hφ : p.input? b = some φ) {v : LocalVar}
    (hv : φ.regular.contains v = true) : LiveAfter s.graph v b := by
  obtain ⟨outcome, hv⟩ := contains_regular.mp hv
  cases hslotted : s.slotted b with
  | false => exact hw.input φ hslotted hφ outcome v hv
  | true =>
    have hmatched : p.input? b = (p.slotsOf b).flow? := hm b hslotted
    obtain ⟨other, hother⟩ := Slots.exists_side_of_flow? (hmatched.symm.trans hφ) outcome
    exact (hw.slots other _ hother).liveAfter hg hv

theorem Within.congr (hw : Within s p b) (hinput : p'.input? b = p.input? b)
    (hslots : p'.slotsOf b = p.slotsOf b) : Within s p' b := by
  constructor
  · rw [hinput]
    exact hw.reaches
  · rw [hinput]
    exact hw.input
  · rw [hslots]
    exact hw.slots

theorem Within.merge {φ : Flow LiveSet} (hw : Within s p b) (hfits : Fits s.graph b (.input φ))
    (h : s.merge b φ p = .ok p') : Within s p' b := by
  rcases Setup.merge_eq_ok h with ⟨-, rfl⟩ | ⟨old, hold, rfl⟩
  · refine ⟨fun _ => hfits.1, ?_, by simpa using hw.slots⟩
    intro ψ _ hψ
    obtain rfl : φ = ψ := by simpa using hψ
    exact hfits.2
  · rw [Setup.bound_eq_join fun _ => inferInstance]
    split
    · exact hw
    · refine ⟨fun _ => hfits.1, ?_, by simpa using hw.slots⟩
      intro ψ hslotted hψ outcome v hv
      obtain rfl : join old φ = ψ := by simpa using hψ
      rw [Flow.side_join, LiveSet.contains_join, Bool.or_eq_true] at hv
      rcases hv with hv | hv
      · exact hw.input old hslotted hold outcome v hv
      · exact hfits.2 outcome v hv

theorem Within.mergeSlot (hg : s.graph.WellFormed) {outcome : Bool} {x : LiveSet}
    (hw : Within s p b) (hslotted : s.slotted b = true)
    (hfits : Fits s.graph b (.slot outcome x)) (h : s.mergeSlot b outcome x p = .ok p') :
    Within s p' b := by
  refine ⟨fun _ => hfits.reachesExit hg, fun _ hnot => by simp [hslotted] at hnot, ?_⟩
  intro other y hy
  rw [Setup.slotsOf_mergeSlot h, Slots.side_put] at hy
  split at hy
  · next heq =>
    subst heq
    obtain rfl := Option.some.inj hy
    cases hold : (p.slotsOf b).side outcome with
    | none => exact hfits
    | some t =>
      -- what was in the slot and what arrives are about the same way out
      obtain ⟨c, hc, hexit, ht⟩ := hw.slots outcome t hold
      obtain ⟨c', hc', -, hx⟩ := hfits
      obtain rfl : c = c' := by simpa [hc] using hc'
      refine ⟨c, hc, hexit, ?_⟩
      intro v hv
      rw [Setup.filled, Setup.bound_eq_join fun _ => inferInstance, LiveSet.contains_join,
        Bool.or_eq_true] at hv
      exact hv.elim (ht v) (hx v)
  · exact hw.slots other y hy

theorem within_deliver (hg : s.graph.WellFormed) {parcel : Parcel LiveSet}
    (hw : ∀ c, Within s p c) (hkind : parcel.isSlot = s.slotted b) (hfits : Fits s.graph b parcel)
    (h : s.deliver b parcel p = .ok p') (c : BlockId) : Within s p' c := by
  by_cases hcb : c = b
  · subst hcb
    cases parcel with
    | input φ => exact (hw c).merge hfits h
    | slot outcome x => exact (hw c).mergeSlot hg hkind.symm hfits h
  · obtain ⟨hchanges, hslots⟩ := Setup.changes_of_deliver h hcb
    exact (hw c).congr ((Setup.delivered_of_deliver h).quiet c hchanges).1 hslots

theorem within_deliverAll (hg : s.graph.WellFormed) {parcels : List (BlockId × Parcel LiveSet)}
    (hw : ∀ c, Within s p c) (haddr : s.Addressed parcels)
    (hfits : ∀ e ∈ parcels, Fits s.graph e.1 e.2) (h : s.deliverAll parcels p = .ok p') :
    ∀ c, Within s p' c := by
  induction parcels generalizing p with
  | nil =>
    cases h
    exact hw
  | cons e parcels ih =>
    obtain ⟨q, hq, hrest⟩ := Setup.deliverAll_cons.mp h
    obtain ⟨hkind, haddr⟩ := List.forall_mem_cons.mp haddr
    obtain ⟨hfit, hfits⟩ := List.forall_mem_cons.mp hfits
    exact ih (within_deliver hg hw hkind hfit hq) haddr hfits hrest

section Run

variable (hanalysis : s.analysis = analysis)

include hanalysis

theorem walkOf_regular (b : BlockId) (p : Pass Empty LiveSet) (input : Flow LiveSet) :
    (s.walkOf b p input).last.flow.regular =
      beforeAll s.graph (s.graph.nodesOf b) input.regular := by
  have hbackward : s.analysis.direction = .backward := by rw [hanalysis]; rfl
  simp only [Setup.walkOf, Graph.passedNodes, hbackward]
  rw [hanalysis, through_regular]

theorem mem_parcelsOf (hg : s.graph.WellFormed) {last : Outcome Empty LiveSet}
    {e : BlockId × Parcel LiveSet} :
    e ∈ s.parcelsOf b last ↔ ∃ edge ∈ s.graph.edges, edge.target = b ∧
      ∃ block, s.graph.block? edge.source = some block ∧
        e = (edge.source, last.sentBackward edge.label block.kind) := by
  have hbackward : s.analysis.direction = .backward := by rw [hanalysis]; rfl
  rw [Setup.mem_parcelsOf hg, hbackward]
  rfl

/-- What flows back into a conditional block arrives in slots. -/
theorem slotted_of_conditional {block : Block} (hblock : s.graph.block? b = some block)
    (hkind : block.kind = .conditional) : s.slotted b = true := by
  simp [Setup.slotted, hanalysis, hblock, hkind, analysis, Analysis.direction]

omit hanalysis in
/-- What is sent back along an edge: into the slot of its outcome if it leaves a conditional block,
else as one store. -/
theorem sentBackward_cases (hg : s.graph.WellFormed) (last : Outcome Empty LiveSet) {edge : Edge}
    (hedge : edge ∈ s.graph.edges) {block : Block}
    (hblock : s.graph.block? edge.source = some block) :
    block.kind ≠ .conditional ∧
        last.sentBackward edge.label block.kind = .input (.single last.flow.regular) ∨
      block.kind = .conditional ∧ ∃ outcome, edge.label = Graph.branchLabel outcome ∧
        s.graph.successor? edge.source (Graph.branchLabel outcome) = some edge.target ∧
        last.sentBackward edge.label block.kind = .slot outcome last.flow.regular := by
  by_cases hkind : block.kind = .conditional
  · have hsucc := hg.successor?_of_edge hblock hkind hedge rfl
    refine .inr ⟨hkind, ?_⟩
    rcases hg.label_of_conditional hblock hkind hedge rfl with hlabel | hlabel
    all_goals rw [hlabel] at hsucc
    · exact ⟨true, hlabel, hsucc, by rw [hlabel, hkind]; rfl⟩
    · exact ⟨false, hlabel, hsucc, by rw [hlabel, hkind]; rfl⟩
  · refine .inl ⟨hkind, ?_⟩
    cases hlabel : edge.label <;> cases hk : block.kind <;> simp_all [Outcome.sentBackward]

/-- A visit sends only what fits. -/
theorem fits_parcelsOf (hg : s.graph.WellFormed) (hw : Within s p b) (hm : s.SlotsMatch p)
    {input : Flow LiveSet} (hinput : p.input? b = some input) :
    ∀ e ∈ s.parcelsOf b (s.walkOf b p input).last, Fits s.graph e.1 e.2 := by
  have hexit : s.graph.ReachesExit b := hw.reaches (by simp [hinput])
  have hlive : ∀ v, (s.walkOf b p input).last.flow.regular.contains v = true →
      LiveBefore s.graph v b := by
    intro v hv
    rw [walkOf_regular hanalysis, contains_beforeAll] at hv
    rcases hv with ⟨pre, n, post, hsplit, hpre, huses⟩ | ⟨hnodes, hafter⟩
    · exact .here hexit hsplit hpre huses
    · obtain ⟨e, he, rfl, htarget⟩ := hw.regular hg hm hinput hafter
      exact .later he hnodes htarget
  intro e he
  obtain ⟨edge, hedge, rfl, block, hblock, rfl⟩ := (mem_parcelsOf hanalysis hg).mp he
  rcases sentBackward_cases hg (s.walkOf edge.target p input).last hedge hblock with
    ⟨-, hsent⟩ | ⟨-, outcome, -, hsucc, hsent⟩
  · rw [hsent]
    refine ⟨hexit.along hedge, ?_⟩
    intro outcome v hv
    rw [Flow.side_single] at hv
    exact ⟨edge, hedge, rfl, hlive v hv⟩
  · rw [hsent]
    exact ⟨edge.target, hsucc, hexit, hlive⟩

theorem within_of_reached {start : Pass Empty LiveSet} (hs : s.Starts start)
    (h : s.Reached start p) : ∀ b, Within s p b := by
  have hg := hs.wellFormed
  induction h with
  | refl =>
    intro b
    refine ⟨?_, ?_, by simp [hs.started.slots, Slots.side]⟩
    · intro hb
      have hstart := hs.started.isSome_input.mp hb
      rw [hanalysis] at hstart
      rcases List.mem_pair.mp hstart with rfl | rfl
      · exact .inl .here
      · exact .inr .here
    · -- nothing is live at the exits
      intro φ _ hφ outcome v hv
      obtain ⟨store, hseed, rfl⟩ := (hs.started.input b φ).mp hφ
      rw [hanalysis] at hseed
      obtain rfl : store = .empty := by
        rcases List.mem_pair.mp hseed with heq | heq <;> exact congrArg Prod.snd heq
      simp at hv
  | @tail p p' hbefore hstep ih =>
    obtain ⟨c, hstep⟩ := hstep
    have horderly := hs.orderly_of_reached hbefore
    obtain ⟨input, pending, q, -, hinput, -, -, hq, rfl⟩ := hstep.spell hg horderly
    have hfits := fits_parcelsOf hanalysis hg (ih c) horderly.slots hinput
    have hwalked : ∀ b, Within s (s.walked c p input pending) b := fun b =>
      (ih b).congr (by simp) (by simp)
    intro b
    exact (within_deliverAll hg hwalked (Setup.addressed_parcelsOf hg c _) hfits hq b).congr
      (by simp) (by simp)

/-! ## Nothing missing -/

variable {start : Pass Empty LiveSet}

/-- Where what a covered block sends back along an edge ends up. -/
theorem absorbed_back (hs : s.Starts start) (hm : s.SlotsMatch p) {q : Pass Empty LiveSet}
    {edge : Edge} (hedge : edge ∈ s.graph.edges) {input : Flow LiveSet}
    (hcovered : s.Covered q p edge.target input) :
    ∃ arrived, p.input? edge.source = some arrived ∧
      (∀ v, (beforeAll s.graph (s.graph.nodesOf edge.target) input.regular).contains v = true →
        arrived.regular.contains v = true) ∧
      ∀ outcome, edge.label = Graph.branchLabel outcome →
        ∃ x, (p.slotsOf edge.source).side outcome = some x ∧
          ∀ v, (beforeAll s.graph (s.graph.nodesOf edge.target) input.regular).contains v = true →
            x.contains v = true := by
  have hg := hs.wellFormed
  obtain ⟨block, hblock⟩ := hg.exists_block_source hedge
  have habsorbed := hcovered.absorbed _
    ((mem_parcelsOf hanalysis hg).mpr ⟨edge, hedge, rfl, block, hblock, rfl⟩) (.inr inferInstance)
  rcases sentBackward_cases hg (s.walkOf edge.target q input).last hedge hblock with
    ⟨hkind, hsent⟩ | ⟨hkind, outcome, hlabel, -, hsent⟩
  · -- the input itself has absorbed it
    rw [hsent, walkOf_regular hanalysis] at habsorbed
    obtain ⟨arrived, harrived, hbelow⟩ := habsorbed
    refine ⟨arrived, harrived, ?_, ?_⟩
    · intro v hv
      have hside := (Flow.below_iff.mp hbelow).2 true
      exact contains_regular.mpr ⟨true, LiveSet.below_iff.mp hside v (by simpa using hv)⟩
    · intro outcome hlabel
      have hnot := hg.label_of_not_conditional hblock hkind hedge rfl
      cases outcome <;> simp [hlabel, Graph.branchLabel] at hnot
  · -- the slot of the edge's outcome has absorbed it, and the input is made of the slots
    rw [hsent, walkOf_regular hanalysis] at habsorbed
    obtain ⟨x, hx, hbelow⟩ := habsorbed
    have hmatched : p.input? edge.source = (p.slotsOf edge.source).flow? :=
      hm _ (slotted_of_conditional hanalysis hblock hkind)
    obtain ⟨arrived, harrived⟩ := Option.isSome_iff_exists.mp (Slots.flow?_isSome_of_side hx)
    refine ⟨arrived, hmatched.trans harrived, ?_, ?_⟩
    · intro v hv
      refine contains_regular.mpr ⟨outcome, ?_⟩
      rw [Slots.side_of_flow? harrived hx]
      exact LiveSet.below_iff.mp hbelow v hv
    · intro other hother
      obtain rfl : outcome = other := by
        rw [hlabel] at hother
        cases outcome <;> cases other <;> simp_all [Graph.branchLabel]
      exact ⟨x, hx, fun v hv => LiveSet.below_iff.mp hbelow v hv⟩

section Finished

variable (hs : s.Starts start) (hreached : s.Reached start p)
  (hcovered : ∀ b input, p.input? b = some input →
    ∃ q, s.Reached start q ∧ s.Covered q p b input)

include hs hreached hcovered

/-- Every block from which an exit can be reached has an input. -/
theorem exists_input (hexit : s.graph.ReachesExit b) : ∃ input, p.input? b = some input := by
  have hseed : ∀ b, (b, LiveSet.empty) ∈ s.analysis.seedsOf s.graph →
      ∃ input, p.input? b = some input := by
    intro b hb
    obtain ⟨input, hinput, -⟩ := Setup.absorbed_seed hs hreached hb (.inr inferInstance)
    exact ⟨input, hinput⟩
  have hback : ∀ goal b, s.graph.Leads goal b → (∃ input, p.input? goal = some input) →
      ∃ input, p.input? b = some input := by
    -- backward along the path: each block on it has sent something to the one before
    intro goal b hleads hgoal
    induction hleads with
    | here => exact hgoal
    | along hedge _ ih =>
      obtain ⟨input, hinput⟩ := ih
      obtain ⟨q, -, hcov⟩ := hcovered _ input hinput
      obtain ⟨arrived, harrived, -⟩ := absorbed_back hanalysis hs
        (hs.orderly_of_reached hreached).slots hedge hcov
      exact ⟨arrived, harrived⟩
  rcases hexit with hexit | hexit
  · exact hback _ b hexit (hseed _ (by simp [hanalysis, analysis, Analysis.seedsOf]))
  · exact hback _ b hexit (hseed _ (by simp [hanalysis, analysis, Analysis.seedsOf]))

/-- What is live at the beginning of a block is sent back from it. -/
theorem contains_of_liveBefore {v : LocalVar} (hlive : LiveBefore s.graph v b) :
    ∀ input, p.input? b = some input →
      (beforeAll s.graph (s.graph.nodesOf b) input.regular).contains v = true := by
  induction hlive with
  | here hexit hsplit hpre huses =>
    intro input _
    exact (contains_beforeAll _ _ _ _).mpr (.inl ⟨_, _, _, hsplit, hpre, huses⟩)
  | @later e he hnodes hnext ih =>
    -- the block reached next has sent it back, and no node here kills it
    intro input hinput
    obtain ⟨next, hnextInput⟩ := exists_input hanalysis hs hreached hcovered hnext.reachesExit
    obtain ⟨q, -, hcov⟩ := hcovered _ next hnextInput
    obtain ⟨arrived, harrived, hregular, -⟩ := absorbed_back hanalysis hs
      (hs.orderly_of_reached hreached).slots he hcov
    obtain rfl : arrived = input := by simpa [hinput] using harrived.symm
    exact (contains_beforeAll _ _ _ _).mpr (.inr ⟨hnodes, hregular v (ih next hnextInput)⟩)

/-- The input of a block holds exactly what is live at its end. -/
theorem contains_regular_iff {input : Flow LiveSet} (hinput : p.input? b = some input)
    (v : LocalVar) : input.regular.contains v = true ↔ LiveAfter s.graph v b := by
  have horderly := hs.orderly_of_reached hreached
  refine ⟨(within_of_reached hanalysis hs hreached b).regular hs.wellFormed horderly.slots hinput, ?_⟩
  rintro ⟨e, he, rfl, hlive⟩
  obtain ⟨next, hnext⟩ := exists_input hanalysis hs hreached hcovered hlive.reachesExit
  obtain ⟨q, -, hcov⟩ := hcovered _ next hnext
  obtain ⟨arrived, harrived, hregular, -⟩ := absorbed_back hanalysis hs horderly.slots he hcov
  obtain rfl : arrived = input := by simpa [hinput] using harrived.symm
  exact hregular v (contains_of_liveBefore hanalysis hs hreached hcovered hlive next hnext)

/-- A slot of a conditional block is filled exactly when an exit can be reached that way, and then
it holds exactly what is live there. -/
theorem slot_iff (outcome : Bool)
    (hc : s.graph.successor? b (Graph.branchLabel outcome) = some c) :
    (((p.slotsOf b).side outcome).isSome ↔ s.graph.ReachesExit c) ∧
      ∀ x, (p.slotsOf b).side outcome = some x →
        ∀ v, x.contains v = true ↔ LiveBefore s.graph v c := by
  have horderly := hs.orderly_of_reached hreached
  have hwithin := within_of_reached hanalysis hs hreached b
  obtain ⟨e, he, rfl, hlabel, rfl⟩ := hs.wellFormed.exists_edge_of_successor? hc
  have hfilled : s.graph.ReachesExit e.target → ∃ x, (p.slotsOf e.source).side outcome = some x ∧
      ∀ v, LiveBefore s.graph v e.target → x.contains v = true := by
    intro hexit
    obtain ⟨next, hnext⟩ := exists_input hanalysis hs hreached hcovered hexit
    obtain ⟨q, -, hcov⟩ := hcovered _ next hnext
    obtain ⟨arrived, -, -, hslot⟩ := absorbed_back hanalysis hs horderly.slots he hcov
    obtain ⟨x, hx, hsent⟩ := hslot outcome hlabel
    exact ⟨x, hx, fun v hv =>
      hsent v (contains_of_liveBefore hanalysis hs hreached hcovered hv next hnext)⟩
  have hfits : ∀ x, (p.slotsOf e.source).side outcome = some x →
      s.graph.ReachesExit e.target ∧ ∀ v, x.contains v = true → LiveBefore s.graph v e.target := by
    intro x hx
    obtain ⟨c, hc', hexit, hlive⟩ := hwithin.slots outcome x hx
    obtain rfl : e.target = c := by simpa [hc] using hc'
    exact ⟨hexit, hlive⟩
  refine ⟨⟨?_, ?_⟩, ?_⟩
  · intro hsome
    obtain ⟨x, hx⟩ := Option.isSome_iff_exists.mp hsome
    exact (hfits x hx).1
  · intro hexit
    obtain ⟨x, hx, -⟩ := hfilled hexit
    simp [hx]
  · intro x hx v
    refine ⟨(hfits x hx).2 v, ?_⟩
    obtain ⟨y, hy, hsent⟩ := hfilled (hfits x hx).1
    obtain rfl : x = y := by simpa [hx] using hy
    exact hsent v

end Finished

end Run

/-- Live locals are exact. The blocks with an input are those from which an exit can be reached; the
input of such a block holds exactly the locals live at its end; and the input of a conditional block
is split exactly when an exit can be reached both ways, each side then being exact for its way. -/
theorem inputs_exact (settings : Settings) (g : Graph) (hg : g.Built) (p : Pass Empty LiveSet)
    (h : analysis.solve settings g = .ok p) (b : BlockId) :
    ((p.findings.inputs[b]?).isSome ↔ g.ReachesExit b) ∧
      ∀ input, p.findings.inputs[b]? = some input →
        (∀ v, input.regular.contains v = true ↔ LiveAfter g v b) ∧
        ∀ block, g.block? b = some block → block.kind = .conditional →
          ∃ t f, g.successor? b .onTrue = some t ∧ g.successor? b .onFalse = some f ∧
            (input.isSplit = true ↔ g.ReachesExit t ∧ g.ReachesExit f) ∧
            (input.isSplit = true →
              (∀ v, input.onTrue.contains v = true ↔ LiveBefore g v t) ∧
              ∀ v, input.onFalse.contains v = true ↔ LiveBefore g v f) := by
  obtain ⟨s, start, hprepare, hreached, hcovered⟩ := Analysis.covered_of_solve hg.wellFormed h
  obtain ⟨hs, rfl, hanalysis, -⟩ := Analysis.starts_of_prepare hg.wellFormed hprepare
  have horderly := hs.orderly_of_reached hreached
  refine ⟨⟨(within_of_reached hanalysis hs hreached b).reaches, ?_⟩, ?_⟩
  · intro hexit
    exact Option.isSome_iff_exists.mpr (exists_input hanalysis hs hreached hcovered hexit)
  · intro input hinput
    refine ⟨contains_regular_iff hanalysis hs hreached hcovered hinput, ?_⟩
    intro block hblock hkind
    obtain ⟨t, f, ht, hf⟩ : ∃ t f, s.graph.successor? b .onTrue = some t ∧
        s.graph.successor? b .onFalse = some f := by
      obtain ⟨t, f, ht, hf, hsucc⟩ := hs.wellFormed.successors_conditional hblock hkind
      refine ⟨t.target, f.target, ?_, ?_⟩ <;> rcases hsucc with hsucc | hsucc <;>
        simp [Graph.successor?, hsucc, ht, hf]
    have hslotted := slotted_of_conditional hanalysis hblock hkind
    have hflow : (p.slotsOf b).flow? = some input := (horderly.slots b hslotted).symm.trans hinput
    have htrue := slot_iff hanalysis hs hreached hcovered true ht
    have hfalse := slot_iff hanalysis hs hreached hcovered false hf
    refine ⟨t, f, ht, hf, ?_, ?_⟩
    · rw [Slots.isSplit_of_flow? hflow, Bool.forall_bool, htrue.1, hfalse.1, and_comm]
    · intro hsplit
      have hboth := (Slots.isSplit_of_flow? hflow).mp hsplit
      obtain ⟨x, hx⟩ := Option.isSome_iff_exists.mp (hboth true)
      obtain ⟨y, hy⟩ := Option.isSome_iff_exists.mp (hboth false)
      have hxside : input.onTrue = x := Slots.side_of_flow? hflow hx
      have hyside : input.onFalse = y := Slots.side_of_flow? hflow hy
      exact ⟨hxside ▸ htrue.2 x hx, hyside ▸ hfalse.2 y hy⟩

/-- A loop that reads `x` into `y` and, as long as `c` lets it, `y` back into `x`. -/
def copyingLoop : Graph :=
  .ofSteps (.loose "")
    [.addBlock .regular, .addBlock .conditional, .addBlock .regular, .addBlock .regular,
      .push ⟨0, 3⟩ (.localRead ⟨"x"⟩), .push ⟨0, 3⟩ (.assignment ⟨"y"⟩ ⟨0, 0⟩),
      .push ⟨0, 4⟩ (.localRead ⟨"c"⟩),
      .push ⟨0, 5⟩ (.localRead ⟨"y"⟩), .push ⟨0, 5⟩ (.assignment ⟨"x"⟩ ⟨0, 3⟩),
      .push ⟨0, 6⟩ (.ret none),
      .addEdge ⟨0, 0⟩ ⟨0, 3⟩ .unconditional, .addEdge ⟨0, 3⟩ ⟨0, 4⟩ .unconditional,
      .addEdge ⟨0, 4⟩ ⟨0, 5⟩ .onTrue, .addEdge ⟨0, 4⟩ ⟨0, 6⟩ .onFalse,
      .addEdge ⟨0, 5⟩ ⟨0, 3⟩ .unconditional, .addEdge ⟨0, 6⟩ ⟨0, 1⟩ .unconditional]

/-- Read off a finished run: behind the condition, `y` is live on the way back only, and `x`, which
is assigned there before it is read, on neither. -/
theorem copyingLoop_inputs_exact :
    copyingLoop.Built ∧ ∃ p, analysis.solve (.default .debug) copyingLoop = .ok p ∧
      LiveBefore copyingLoop ⟨"y"⟩ ⟨0, 5⟩ ∧ ¬ LiveBefore copyingLoop ⟨"y"⟩ ⟨0, 6⟩ ∧
      ¬ LiveAfter copyingLoop ⟨"x"⟩ ⟨0, 4⟩ := by
  have hbuilt : copyingLoop.Built := Graph.built_ofSteps (by decide +kernel)
  obtain ⟨p, hp⟩ :=
    exists_eq_ok (x := analysis.solve (.default .debug) copyingLoop) (by decide +kernel)
  have hrecorded : (analysis.solve (.default .debug) copyingLoop).toOption.map (fun p =>
      p.findings.inputs[(⟨0, 4⟩ : BlockId)]?) =
        some (some (.split (.ofList [⟨"c"⟩, ⟨"y"⟩]) .empty)) := by
    decide +kernel
  simp only [hp, Except.toOption, Option.map_some, Option.some.injEq] at hrecorded
  obtain ⟨-, hexact⟩ := inputs_exact (.default .debug) copyingLoop hbuilt p hp ⟨0, 4⟩
  obtain ⟨hregular, hbranches⟩ := hexact _ hrecorded
  obtain ⟨block, hblock, hkind⟩ := Option.map_eq_some_iff.mp
    (show (copyingLoop.block? ⟨0, 4⟩).map Block.kind = some .conditional by decide +kernel)
  obtain ⟨t, f, ht, hf, -, hsides⟩ := hbranches block hblock hkind
  obtain ⟨htrue, hfalse⟩ := hsides rfl
  obtain rfl : (⟨0, 5⟩ : BlockId) = t := by
    have hsucc : copyingLoop.successor? ⟨0, 4⟩ .onTrue = some ⟨0, 5⟩ := by decide +kernel
    simpa [hsucc] using ht
  obtain rfl : (⟨0, 6⟩ : BlockId) = f := by
    have hsucc : copyingLoop.successor? ⟨0, 4⟩ .onFalse = some ⟨0, 6⟩ := by decide +kernel
    simpa [hsucc] using hf
  refine ⟨hbuilt, p, hp, ?_, ?_, ?_⟩
  · rw [← htrue]
    decide
  · rw [← hfalse]
    decide
  · rw [← hregular]
    decide

end LiveLocals

end FlowFixpoint
