/-
# FlowFixpoint.Proofs.BranchRefinement — what the two stores behind an equality test are good for.

A test `x == k` takes the read that it compares for the local, and the arriving stores for stores of
its own outcomes. Both may be wrong. The local may have been assigned since it was read, and then the
outcome on which the sides are equal says nothing about its value. And the arriving flow may be split
already, by a test that nothing but reads has followed; its two stores belong to the outcomes of that
test, not of this one.

So the store of an outcome covers the locals exactly if the arriving store for the outcome does and
the refined local has the value it is refined to. Where only one store arrives at every test of the
block, the first holds, and where no assignment has overtaken a compared read, the second.
-/
import FlowFixpoint.Proofs.ConstantSoundness
import FlowFixpoint.Proofs.EvaluationOrder

namespace FlowFixpoint

/-- The outcome of an equality test on which its two sides are equal, and the sides. -/
def NodeKind.test? : NodeKind → Option (Bool × NodeId × NodeId)
  | .comparison .equal left right => some (true, left, right)
  | .comparison .notEqual left right => some (false, left, right)
  | _ => none

namespace NodeKind

theorem test?_cases {kind : NodeKind} {equalOn : Bool} {l r : NodeId}
    (h : kind.test? = some (equalOn, l, r)) :
    kind = .comparison .equal l r ∧ equalOn = true ∨
      kind = .comparison .notEqual l r ∧ equalOn = false := by
  unfold test? at h
  split at h <;> cases h <;> simp

theorem exists_test? {kind : NodeKind} (h : kind.isEquality = true) :
    ∃ equalOn l r, kind.test? = some (equalOn, l, r) := by
  unfold isEquality at h
  split at h
  · exact ⟨true, _, _, rfl⟩
  · exact ⟨false, _, _, rfl⟩
  · cases h

theorem isEquality_of_test? {kind : NodeKind} {equalOn : Bool} {l r : NodeId}
    (h : kind.test? = some (equalOn, l, r)) : kind.isEquality = true := by
  rcases test?_cases h with ⟨rfl, -⟩ | ⟨rfl, -⟩ <;> rfl

theorem operands_of_test? {kind : NodeKind} {equalOn : Bool} {l r : NodeId}
    (h : kind.test? = some (equalOn, l, r)) : kind.operands = [l, r] := by
  rcases test?_cases h with ⟨rfl, -⟩ | ⟨rfl, -⟩ <;> rfl

end NodeKind

/-- The outcome of a test is the one on which the sides are equal exactly if they are. -/
theorem Machine.verdict_of_test? {α : Type} {σ : Machine α} {kind : NodeKind} {equalOn : Bool}
    {l r : NodeId} (h : kind.test? = some (equalOn, l, r)) {outcome : Bool} :
    σ.Verdict kind outcome ↔ (outcome = equalOn ↔ σ.results l = σ.results r) := by
  rcases NodeKind.test?_cases h with ⟨rfl, rfl⟩ | ⟨rfl, rfl⟩
  · rfl
  · cases outcome <;> simp [Verdict]

namespace Constants

variable {α : Type}

/-! ## One test -/

section Test

variable {scene : Scene Constant} {n : Node} {equalOn outcome : Bool} {l r : NodeId}
  {φ : Flow ConstantStore} {locals : LocalVar → Option (Datum α)} {x : LocalVar} {k : Int64}

theorem transfer_of_test? (h : n.kind.test? = some (equalOn, l, r)) :
    transfer scene n φ = equality scene equalOn l r φ := by
  rcases NodeKind.test?_cases h with ⟨hkind, rfl⟩ | ⟨hkind, rfl⟩ <;> simp only [transfer, hkind]

theorem known_of_refinement? {c : Constant} (h : refinement? scene l r = some (x, c)) :
    ∃ k, c = .known k := by
  unfold refinement? at h
  split at h
  · next k _ _ =>
    cases h
    exact ⟨k, rfl⟩
  · split at h
    · next k _ _ =>
      cases h
      exact ⟨k, rfl⟩
    · cases h

/-- What is refined is read by one of the sides. -/
theorem localRead?_of_refinement? {c : Constant} (h : refinement? scene l r = some (x, c)) :
    ∃ m ∈ [l, r], scene.graph.localRead? m = some x := by
  unfold refinement? at h
  split at h
  · next hread _ =>
    cases h
    exact ⟨l, by simp, hread⟩
  · split at h
    · next hread _ =>
      cases h
      exact ⟨r, by simp, hread⟩
    · cases h

/-- The stores that a test goes by: the arriving ones, or their join if it refines nothing. -/
def tested (scene : Scene Constant) (l r : NodeId) (φ : Flow ConstantStore) :
    Flow ConstantStore :=
  match refinement? scene l r with
  | none => .single φ.regular
  | some _ => φ

/-- On the outcome on which the sides are equal, the refined local has the refined value. -/
def Agrees (scene : Scene Constant) (equalOn : Bool) (l r : NodeId) (outcome : Bool)
    (locals : LocalVar → Option (Datum α)) : Prop :=
  outcome = equalOn → ∀ x k, refinement? scene l r = some (x, .known k) →
    ∀ v, locals x = some v → v = .integer k

theorem describes_meet_iff {c : Constant} {v : Datum α} :
    Describes (c.meet (.known k)) v ↔ Describes c v ∧ v = .integer k := by
  constructor
  · intro h
    cases c with
    | bottom => exact h.elim
    | top => exact ⟨trivial, h⟩
    | known k' =>
      by_cases hk : k' = k
      · subst hk
        have h' : v = .integer k' := by simpa [Flat.meet, Describes] using h
        exact ⟨h', h'⟩
      · simp [Flat.meet, hk, Describes] at h
  · rintro ⟨h, rfl⟩
    exact describes_meet h

/-- A refined store covers exactly if the store did and the local has the value. -/
theorem covers_refine_iff {store : ConstantStore} (hbound : (store.get? x).isSome = true) :
    Covers (refine store x (.known k)) locals ↔
      Covers store locals ∧ ∀ v, locals x = some v → v = .integer k := by
  obtain ⟨c, hc⟩ := Option.isSome_iff_exists.mp hbound
  have hget : ∀ y, (refine store x (.known k)).get? y =
      if x = y then some (c.meet (.known k)) else store.get? y := by
    intro y
    rw [refine, Env.get?_set, lookup, hc, Option.getD_some]
  constructor
  · intro h
    have hx : ∀ v, locals x = some v → Describes c v ∧ v = .integer k := by
      intro v hv
      obtain ⟨d, hd, hdescribes⟩ := h x v hv
      rw [hget, if_pos rfl] at hd
      obtain rfl := Option.some.inj hd
      exact describes_meet_iff.mp hdescribes
    refine ⟨?_, fun v hv => (hx v hv).2⟩
    intro y v hv
    by_cases hxy : x = y
    · subst hxy
      exact ⟨c, hc, (hx v hv).1⟩
    · obtain ⟨d, hd, hdescribes⟩ := h y v hv
      rw [hget, if_neg hxy] at hd
      exact ⟨d, hd, hdescribes⟩
  · rintro ⟨h, hx⟩
    refine h.set ?_ fun _ _ => rfl
    intro v hv
    exact describes_meet_iff.mpr ⟨h.lookup hv, hx v hv⟩

/-- The store of an outcome behind a test covers exactly if the one that the test goes by does and
the refined local agrees. -/
theorem covers_equality_iff
    (hbound : ∀ x k, refinement? scene l r = some (x, .known k) →
      ((φ.side outcome).get? x).isSome = true) :
    Covers ((equality scene equalOn l r φ).flow.side outcome) locals ↔
      Covers ((tested scene l r φ).side outcome) locals ∧
        Agrees scene equalOn l r outcome locals := by
  cases hrefine : refinement? scene l r with
  | none =>
    simp [equality, tested, Agrees, hrefine, Outcome.pass, Outcome.single]
  | some entry =>
    obtain ⟨x, c⟩ := entry
    obtain ⟨k, rfl⟩ := known_of_refinement? hrefine
    have hagrees : Agrees scene equalOn l r outcome locals ↔
        (outcome = equalOn → ∀ v, locals x = some v → v = .integer k) := by
      simp [Agrees, hrefine]
    have hside : (equality scene equalOn l r φ).flow.side outcome =
        if outcome = equalOn then refine (φ.side outcome) x (.known k) else φ.side outcome := by
      simp only [equality, hrefine]
      cases equalOn <;> cases outcome <;> rfl
    rw [hagrees, hside, tested, hrefine]
    by_cases heq : outcome = equalOn
    · rw [if_pos heq, covers_refine_iff (hbound x k hrefine)]
      simp [heq]
    · simp [heq]

/-- A test leaves the store of the outcome that it does not refine as it was. -/
theorem side_equality_not (scene : Scene Constant) (equalOn : Bool) (l r : NodeId)
    (φ : Flow ConstantStore) : (equality scene equalOn l r φ).flow.side (!equalOn) =
      (tested scene l r φ).side (!equalOn) := by
  cases hrefine : refinement? scene l r with
  | none => simp [equality, tested, hrefine, Outcome.pass, Outcome.single]
  | some entry =>
    simp only [equality, tested, hrefine]
    cases equalOn <;> rfl

theorem tested_of_single {store : ConstantStore} :
    tested scene l r (.single store) = .single store := by
  unfold tested
  split <;> rfl

end Test

/-! ## Bound locals -/

/-- Both stores of the flow bind the local. -/
def Binds (φ : Flow ConstantStore) (x : LocalVar) : Prop :=
  ∀ outcome, ((φ.side outcome).get? x).isSome = true

section Bound

variable {φ : Flow ConstantStore} {x : LocalVar}

theorem Binds.regular (h : Binds φ x) : (φ.regular.get? x).isSome = true := by
  obtain ⟨c, hc⟩ := Option.isSome_iff_exists.mp (h true)
  obtain ⟨d, hd, -⟩ := Env.below_iff.mp (φ.side_below_regular true) x c hc
  simp [hd]

theorem isSome_get?_set {store : ConstantStore} (h : (store.get? x).isSome = true) (y : LocalVar)
    (c : Constant) : ((store.set y c).get? x).isSome = true := by
  rw [Env.get?_set]
  split
  · rfl
  · exact h

theorem binds_single {store : ConstantStore} (h : (store.get? x).isSome = true) :
    Binds (.single store) x := by
  intro outcome
  rw [Flow.side_single]
  exact h

/-- No node makes a flow forget a local. -/
theorem Binds.transfer (h : Binds φ x) (scene : Scene Constant) (n : Node) :
    Binds (transfer scene n φ).flow x := by
  by_cases hassign : ∃ y, n.Assigns y
  · obtain ⟨y, m, hkind⟩ := hassign
    simp only [Constants.transfer, hkind, Outcome.single]
    exact binds_single (isSome_get?_set h.regular y _)
  · cases hequality : n.kind.isEquality with
    | false =>
      rcases flow_transfer scene φ (fun y hy => hassign ⟨y, hy⟩) hequality with hflow | hflow
      · rw [hflow]
        exact h
      · rw [hflow]
        exact binds_single h.regular
    | true =>
      obtain ⟨equalOn, l, r, htest⟩ := NodeKind.exists_test? hequality
      rw [transfer_of_test? htest, equality]
      split
      · exact binds_single h.regular
      · intro outcome
        cases equalOn <;> cases outcome
        · exact isSome_get?_set (h false) _ _
        · exact h true
        · exact h false
        · exact isSome_get?_set (h true) _ _

theorem Binds.through (h : Binds φ x) (g : Graph) (f : Findings Constant ConstantStore)
    (ns : List Node) : Binds (Walk.through g analysis f φ ns).last.flow x := by
  induction ns using List.reverseRecOn with
  | nil => exact h
  | append_singleton ns n ih =>
    rw [Walk.through_concat, Walk.step_last]
    exact ih.transfer _ n

end Bound

/-! ## One store -/

/-- Is there certainly one store behind the nodes, given whether there is one before them? A read
leaves the flow as it is, an equality test may split it, and every other node joins it. -/
def oneStore (before : Bool) (ns : List Node) : Bool :=
  ns.foldl (fun one n => match n.kind with
    | .localRead _ => one
    | kind => !kind.isEquality) before

theorem isSplit_transfer {n : Node} (hread : ∀ x, n.kind ≠ .localRead x)
    (hequality : n.kind.isEquality = false) (scene : Scene Constant) (φ : Flow ConstantStore) :
    (transfer scene n φ).flow.isSplit = false := by
  cases hkind : n.kind with
  | localRead x => exact absurd hkind (hread x)
  | literal l => cases l <;> simp [transfer, hkind, Outcome.single, Outcome.pass, Flow.isSplit]
  | comparison op l r =>
    cases op <;> simp_all [transfer, Outcome.single, Outcome.pass, NodeKind.isEquality, Flow.isSplit]
  | _ => simp [transfer, hkind, Outcome.single, Outcome.pass, Flow.isSplit]

theorem isSplit_through (g : Graph) (f : Findings Constant ConstantStore)
    (input : Flow ConstantStore) {ns : List Node} (h : oneStore (!input.isSplit) ns = true) :
    (Walk.through g analysis f input ns).last.flow.isSplit = false := by
  induction ns using List.reverseRecOn with
  | nil =>
    change input.isSplit = false
    simpa [oneStore] using h
  | append_singleton ns n ih =>
    rw [oneStore, List.foldl_append, List.foldl_cons, List.foldl_nil] at h
    rw [Walk.through_concat, Walk.step_last]
    split at h
    · next x hkind =>
      simp only [analysis, transfer, hkind, Outcome.keep]
      exact ih h
    · next hread =>
      exact isSplit_transfer hread (by simpa using h) _ _

/-! ## Walking a block -/

section Walking

variable {n : Node} {φ : Flow ConstantStore} {σ τ : Machine α} {v : Datum α}

/-- The store that stands for both outcomes goes on covering, if only one store arrives at a test. -/
theorem covers_regular_transfer {scene : Scene Constant}
    (hoperand : ∀ m ∈ reads n.kind, ∃ u, σ.results m = some u ∧ Describes (operand scene m) u)
    (hcovers : Covers φ.regular σ.locals) (hyields : σ.Yields n.kind v)
    (hone : n.kind.isEquality = true → φ.isSplit = false) :
    Covers (transfer scene n φ).flow.regular (σ.after n v).locals := by
  by_cases hassign : ∃ x, n.Assigns x
  · obtain ⟨x, m, hkind⟩ := hassign
    obtain ⟨u, hu, hdescribes⟩ := hoperand m (by simp [hkind, reads])
    simp only [Machine.Yields, hkind] at hyields
    obtain rfl : u = v := by simpa [hu] using hyields
    simp only [transfer, hkind, Outcome.single]
    exact hcovers.assign hkind hdescribes
  · have hnone : ∀ x, ¬ n.Assigns x := fun x hx => hassign ⟨x, hx⟩
    have hlocals : (σ.after n v).locals = σ.locals :=
      funext fun x => σ.locals_after_of_not_assigns v (hnone x)
    rw [hlocals]
    cases hequality : n.kind.isEquality with
    | false =>
      rcases flow_transfer scene φ hnone hequality with hflow | hflow <;> rw [hflow] <;>
        exact hcovers
    | true =>
      obtain ⟨equalOn, l, r, htest⟩ := NodeKind.exists_test? hequality
      rw [transfer_of_test? htest]
      cases φ with
      | split t f => cases hone hequality
      | single store =>
        -- the outcome that is not refined keeps the one store that has arrived
        apply Covers.regular
        rw [side_equality_not, tested_of_single, Flow.side_single]
        exact hcovers

variable {g : Graph} {b : BlockId} {f : Findings Constant ConstantStore}
  {input : Flow ConstantStore}

/-- Each node of the block comes after its operands, which are in the block too. -/
def OperandsFirst (g : Graph) (b : BlockId) : Prop :=
  ∀ pre n post, g.nodesOf b = pre ++ n :: post → ∀ m ∈ n.kind.operands, ∃ k ∈ pre, k.id = m

/-- One more node keeps a walk and a run together. -/
theorem tracks_step {ns : List Node}
    (htracks : Tracks (Walk.through g analysis f input ns).findings.values ns
      (.single (Walk.through g analysis f input ns).last.flow.regular) σ)
    (hfresh : ∀ k ∈ ns, k.id ≠ n.id) (hfirst : ∀ m ∈ n.kind.operands, ∃ k ∈ ns, k.id = m)
    (hsilent : gives n.kind = false → f.values[n.id]? = none)
    (hone : n.kind.isEquality = true →
      (Walk.through g analysis f input ns).last.flow.isSplit = false)
    (hyields : σ.Yields n.kind v) :
    Tracks (Walk.through g analysis f input (ns ++ [n])).findings.values (ns ++ [n])
      (.single (Walk.through g analysis f input (ns ++ [n])).last.flow.regular) (σ.after n v) := by
  have hold := Walk.through_values_of_not_mem g analysis f input hfresh
  rw [Walk.through_concat]
  generalize Walk.through g analysis f input ns = w at htracks hone hold
  have hcovers : Covers w.last.flow.regular σ.locals := htracks.covers true
  have hoperand : ∀ m ∈ reads n.kind, ∃ u, σ.results m = some u ∧
      Describes (operand { graph := g, values := w.findings.values, replay := false } m) u := by
    intro m hm
    obtain ⟨k, hk, rfl⟩ := hfirst m (reads_subset_operands n.kind hm)
    exact htracks.results k hk
  refine htracks.extend hfresh hyields (fun outcome => ?_) (fun k hk => ?_) ?_
  · rw [Flow.side_single, Walk.step_last]
    exact covers_regular_transfer hoperand hcovers hyields hone
  · rw [Walk.step_values, if_neg (Ne.symm (hfresh k hk))]
  · rw [Walk.step_values, if_pos rfl, Walk.step_last]
    cases hvalue : (analysis.transfer _ n w.last.flow).value with
    | some c => exact describes_of_yields hoperand hcovers hyields hvalue
    | none =>
      have hgives : gives n.kind = false := by
        by_contra hgives
        have hsome := isSome_value (n := n) (by simpa using hgives)
          { graph := g, values := w.findings.values, replay := false } w.last.flow
        simp only [analysis] at hvalue
        simp [hvalue] at hsome
      rw [hold, hsilent hgives]
      trivial

/-- Up to any node of a block a run and a walk stay together, if only one store arrives at each test
on the way. -/
theorem tracks_through (hg : g.WellFormed) (hfirst : OperandsFirst g b)
    (hsilent : ∀ k ∈ g.nodesOf b, gives k.kind = false → f.values[k.id]? = none) {side : Bool}
    (hcovers : Covers (input.side side) σ.locals) {ns : List Node} (hruns : σ.Runs ns τ) :
    ∀ post, g.nodesOf b = ns ++ post →
      (∀ before k after, ns = before ++ k :: after → k.kind.isEquality = true →
        oneStore (!input.isSplit) before = true) →
      Tracks (Walk.through g analysis f input ns).findings.values ns
        (.single (Walk.through g analysis f input ns).last.flow.regular) τ := by
  induction hruns with
  | nil =>
    intro _ _ _
    refine ⟨fun outcome => ?_, by simp, by simp⟩
    rw [Flow.side_single]
    exact hcovers.regular
  | @snoc ns τ n v _ hyields ih =>
    intro post hsplit hone
    have hsplit' : g.nodesOf b = ns ++ n :: post := by simp [hsplit]
    have htracks := ih (n :: post) hsplit' fun before k after hns =>
      hone before k (after ++ [n]) (by simp [hns])
    refine tracks_step htracks (fun k hk => hg.id_ne_of_split hsplit' hk List.mem_cons_self)
      (hfirst ns n post hsplit') (hsilent n (by simp [hsplit'])) (fun hequality => ?_) hyields
    exact isSplit_through g f input (hone ns n [] rfl hequality)

end Walking

/-! ## Runs that end in a test -/

/-- A block of a graph that ends in an equality test, with an input that binds its locals, and a run
of its nodes that starts from locals which one of the input's stores covers. -/
structure TestRun (α : Type) where
  graph : Graph
  block : BlockId
  before : List Node
  test : Node
  /-- The outcome on which the sides of the test are equal. -/
  equalOn : Bool
  left : NodeId
  right : NodeId
  findings : Findings Constant ConstantStore
  input : Flow ConstantStore
  start : Machine α
  stop : Machine α
  built : graph.Built
  nodes : graph.nodesOf block = before ++ [test]
  test_eq : test.kind.test? = some (equalOn, left, right)
  operands_first : OperandsFirst graph block
  /-- Nothing is recorded for nodes that have no value. -/
  silent : ∀ k ∈ graph.nodesOf block, gives k.kind = false → findings.values[k.id]? = none
  bound : ∀ k ∈ graph.nodesOf block, ∀ x, k.kind.local? = some x → Binds input x
  covered : ∃ side, Covers (input.side side) start.locals
  runs : start.Runs (graph.nodesOf block) stop

namespace TestRun

variable (t : TestRun α)

/-- What the test looks at. -/
def scene : Scene Constant where
  graph := t.graph
  values := (Walk.through t.graph analysis t.findings t.input t.before).findings.values
  replay := false

/-- The stores that the test goes by. -/
def arriving : Flow ConstantStore :=
  tested t.scene t.left t.right
    (Walk.through t.graph analysis t.findings t.input t.before).last.flow

/-- The stores behind the block. -/
def output : Flow ConstantStore :=
  (Walk.through t.graph analysis t.findings t.input (t.graph.nodesOf t.block)).last.flow

/-- On the outcome that the test refines, the refined local has the refined value. -/
def RefinedAgrees (outcome : Bool) : Prop :=
  Agrees t.scene t.equalOn t.left t.right outcome t.stop.locals

/-- One store arrives at every test of the block: between two tests, and between a split input and
the first test, stands a node that is not a read. -/
def OneStoreEach : Prop :=
  ∀ pre n post, t.graph.nodesOf t.block = pre ++ n :: post → n.kind.isEquality = true →
    oneStore (!t.input.isSplit) pre = true

/-- No local is assigned between a read of it that the last test compares and the test. -/
def ReadsCurrent : Prop :=
  ∀ pre k mid x, t.before = pre ++ k :: mid → k.id ∈ t.test.kind.operands →
    k.kind = .localRead x → ∀ j ∈ mid, ¬ j.Assigns x

variable {t}

/-- The sides of the test are nodes before it. -/
theorem exists_side {m : NodeId} (hm : m ∈ [t.left, t.right]) : ∃ k ∈ t.before, k.id = m := by
  refine t.operands_first t.before t.test [] t.nodes m ?_
  rw [NodeKind.operands_of_test? t.test_eq]
  exact hm

/-- What the test may refine is bound in the stores that arrive at it. -/
theorem binds_refined {x : LocalVar} {c : Constant}
    (h : refinement? t.scene t.left t.right = some (x, c)) :
    Binds (Walk.through t.graph analysis t.findings t.input t.before).last.flow x := by
  obtain ⟨m, hm, hread⟩ := localRead?_of_refinement? h
  obtain ⟨k, hk, rfl⟩ := exists_side hm
  have hlisted : k ∈ t.graph.nodesOf t.block := by simp [t.nodes, hk]
  have hkind := t.built.wellFormed.kind_of_localRead? hlisted hread
  exact (t.bound k hlisted x (by rw [hkind]; rfl)).through t.graph t.findings t.before

/-- The run up to the test: the test changes no local and no result of its sides. -/
theorem exists_before : ∃ σ, t.start.Runs t.before σ ∧ σ.locals = t.stop.locals ∧
    ∀ m ∈ [t.left, t.right], σ.results m = t.stop.results m := by
  have hruns := t.runs
  rw [t.nodes] at hruns
  obtain ⟨σ, v, hbefore, -, hstop⟩ := Machine.runs_concat hruns
  have hassigns : ∀ x, ¬ t.test.Assigns x := by
    rintro x ⟨m, hkind⟩
    have htest := t.test_eq
    rw [hkind] at htest
    cases htest
  refine ⟨σ, hbefore, ?_, ?_⟩
  · funext x
    rw [hstop, σ.locals_after_of_not_assigns v (hassigns x)]
  · intro m hm
    obtain ⟨k, hk, rfl⟩ := exists_side hm
    rw [hstop, σ.results_after_of_ne t.test v
      (t.built.wellFormed.id_ne_of_split t.nodes hk List.mem_cons_self)]

/-- Behind the block the stores are those of the test. -/
theorem output_eq : t.output = (equality t.scene t.equalOn t.left t.right
    (Walk.through t.graph analysis t.findings t.input t.before).last.flow).flow := by
  rw [output, t.nodes, Walk.through_concat, Walk.step_last]
  exact congrArg Outcome.flow (transfer_of_test? t.test_eq)

theorem covers_output_iff (outcome : Bool) : Covers (t.output.side outcome) t.stop.locals ↔
    Covers (t.arriving.side outcome) t.stop.locals ∧ t.RefinedAgrees outcome := by
  rw [output_eq]
  exact covers_equality_iff fun x k hrefine => binds_refined hrefine outcome

/-- Where one store arrives at every test, the run and the walk stay together up to the last one. -/
theorem tracks_before (hone : t.OneStoreEach) {σ : Machine α} (hruns : t.start.Runs t.before σ) :
    Tracks t.scene.values t.before
      (.single (Walk.through t.graph analysis t.findings t.input t.before).last.flow.regular)
      σ := by
  obtain ⟨side, hcovers⟩ := t.covered
  refine tracks_through t.built.wellFormed t.operands_first t.silent hcovers hruns [t.test] t.nodes ?_
  intro pre k post hbefore
  exact hone pre k (post ++ [t.test]) (by simp [t.nodes, hbefore])

theorem covers_arriving (hone : t.OneStoreEach) (outcome : Bool) :
    Covers (t.arriving.side outcome) t.stop.locals := by
  obtain ⟨σ, hruns, hlocals, -⟩ := exists_before (t := t)
  have hregular := (tracks_before hone hruns).covers true
  rw [Flow.side_single, hlocals] at hregular
  have hsplit := isSplit_through t.graph t.findings t.input
    (hone t.before t.test [] t.nodes (NodeKind.isEquality_of_test? t.test_eq))
  unfold arriving
  generalize (Walk.through t.graph analysis t.findings t.input t.before).last.flow = φ at *
  cases φ with
  | split _ _ => cases hsplit
  | single store =>
    rw [tested_of_single, Flow.side_single]
    exact hregular

/-- Where also no compared read is overtaken, the refined local agrees. -/
theorem refinedAgrees (hone : t.OneStoreEach) (hcurrent : t.ReadsCurrent) {outcome : Bool}
    (hverdict : t.stop.Verdict t.test.kind outcome) : t.RefinedAgrees outcome := by
  intro houtcome x k hrefine v hv
  obtain ⟨σ, hruns, hlocals, hresults⟩ := exists_before (t := t)
  have htracks := tracks_before hone hruns
  have hequal : σ.results t.left = σ.results t.right := by
    rw [hresults t.left (by simp), hresults t.right (by simp)]
    exact ((Machine.verdict_of_test? t.test_eq).mp hverdict).mp houtcome
  have hoperand : ∀ m ∈ [t.left, t.right], ∃ u, σ.results m = some u ∧
      Describes (operand t.scene m) u := by
    intro m hm
    obtain ⟨j, hj, rfl⟩ := exists_side hm
    exact htracks.results j hj
  have hread : ∀ m ∈ [t.left, t.right], ∀ y, t.scene.graph.localRead? m = some y →
      σ.results m = σ.locals y := by
    intro m hm y hread
    refine htracks.results_of_read t.built.wellFormed t.nodes (exists_side hm) ?_ hread
    rintro pre j mid hbefore rfl z hkind
    refine hcurrent pre j mid z hbefore ?_ hkind
    rw [NodeKind.operands_of_test? t.test_eq]
    exact hm
  obtain ⟨k', hk', hx⟩ := locals_of_equal hoperand hread hequal hrefine
  cases hk'
  rw [← hlocals, hx] at hv
  exact (Option.some.inj hv).symm

end TestRun

/-- Behind an equality test, the store of the outcome that a run has decided covers its locals
exactly if the store that the test goes by does and the refined local has the refined value. The
first holds if one store arrives at every test of the block, both hold if also no compared read is
overtaken by an assignment. -/
theorem test_stores_cover_up_to_stale_reads (t : TestRun α) (outcome : Bool)
    (hverdict : t.stop.Verdict t.test.kind outcome) :
    (Covers (t.output.side outcome) t.stop.locals ↔
      Covers (t.arriving.side outcome) t.stop.locals ∧ t.RefinedAgrees outcome) ∧
    (t.OneStoreEach → Covers (t.arriving.side outcome) t.stop.locals) ∧
    (t.OneStoreEach → t.ReadsCurrent → Covers (t.output.side outcome) t.stop.locals) := by
  refine ⟨TestRun.covers_output_iff outcome, fun hone => TestRun.covers_arriving hone outcome, ?_⟩
  intro hone hcurrent
  rw [TestRun.covers_output_iff]
  exact ⟨TestRun.covers_arriving hone outcome, TestRun.refinedAgrees hone hcurrent hverdict⟩

/-! ## Two blocks -/

/-- A node of block 3, by its position. -/
def inBlockThree (i : Nat) (kind : NodeKind) : Node := ⟨⟨0, i⟩, ⟨0, 3⟩, kind, []⟩

/-- Compares the parameter with 7 and then, after it has been read again, with 3. -/
def testedTwice : Graph :=
  .ofSteps (.lambda [⟨"p"⟩])
    [.addBlock .regular, .addBlock .conditional,
      .push ⟨0, 3⟩ (.localRead ⟨"p"⟩), .push ⟨0, 3⟩ (.literal (.integer 7)),
      .push ⟨0, 3⟩ (.comparison .notEqual ⟨0, 0⟩ ⟨0, 1⟩), .push ⟨0, 3⟩ (.literal (.integer 3)),
      .push ⟨0, 3⟩ (.localRead ⟨"p"⟩), .push ⟨0, 3⟩ (.comparison .equal ⟨0, 4⟩ ⟨0, 3⟩),
      .addEdge ⟨0, 0⟩ ⟨0, 3⟩ .unconditional, .addEdge ⟨0, 3⟩ ⟨0, 4⟩ .unconditional,
      .addEdge ⟨0, 4⟩ ⟨0, 1⟩ .onTrue, .addEdge ⟨0, 4⟩ ⟨0, 2⟩ .onFalse]

/-- Reads the parameter, sets it to 5, and compares what has been read with 3. -/
def overtakenRead : Graph :=
  .ofSteps (.lambda [⟨"p"⟩])
    [.addBlock .regular, .addBlock .conditional,
      .push ⟨0, 3⟩ (.localRead ⟨"p"⟩), .push ⟨0, 3⟩ (.literal (.integer 5)),
      .push ⟨0, 3⟩ (.assignment ⟨"p"⟩ ⟨0, 1⟩), .push ⟨0, 3⟩ (.literal (.integer 3)),
      .push ⟨0, 3⟩ (.comparison .equal ⟨0, 0⟩ ⟨0, 3⟩),
      .addEdge ⟨0, 0⟩ ⟨0, 3⟩ .unconditional, .addEdge ⟨0, 3⟩ ⟨0, 4⟩ .unconditional,
      .addEdge ⟨0, 4⟩ ⟨0, 1⟩ .onTrue, .addEdge ⟨0, 4⟩ ⟨0, 2⟩ .onFalse]

theorem binds_parameter {ns : List Node} (h : ∀ k ∈ ns, ∀ x ∈ k.kind.local?, x = ⟨"p"⟩) :
    ∀ k ∈ ns, ∀ x, k.kind.local? = some x → Binds (.single (initial (.lambda [⟨"p"⟩]))) x := by
  intro k hk x hx
  rw [h k hk x hx]
  apply binds_single
  rw [get?_initial (List.mem_singleton.mpr rfl)]
  rfl

theorem covers_atThree : Covers (initial (.lambda [⟨"p"⟩])) atThree.locals := by
  intro x v hv
  have hx : x = ⟨"p"⟩ := by
    by_contra hne
    simp [atThree, hne] at hv
  rw [hx]
  exact ⟨.top, get?_initial (List.mem_singleton.mpr rfl), trivial⟩

/-- The run of the two tests with parameter 3. -/
def testedTwiceRun : TestRun Unit where
  graph := testedTwice
  block := ⟨0, 3⟩
  before := [inBlockThree 0 (.localRead ⟨"p"⟩), inBlockThree 1 (.literal (.integer 7)),
    inBlockThree 2 (.comparison .notEqual ⟨0, 0⟩ ⟨0, 1⟩), inBlockThree 3 (.literal (.integer 3)),
    inBlockThree 4 (.localRead ⟨"p"⟩)]
  test := inBlockThree 5 (.comparison .equal ⟨0, 4⟩ ⟨0, 3⟩)
  equalOn := true
  left := ⟨0, 4⟩
  right := ⟨0, 3⟩
  findings := {}
  input := .single (initial (.lambda [⟨"p"⟩]))
  start := atThree
  stop := (((((atThree.after (inBlockThree 0 (.localRead ⟨"p"⟩)) (.integer 3)).after
    (inBlockThree 1 (.literal (.integer 7))) (.integer 7)).after
    (inBlockThree 2 (.comparison .notEqual ⟨0, 0⟩ ⟨0, 1⟩)) (.other ())).after
    (inBlockThree 3 (.literal (.integer 3))) (.integer 3)).after
    (inBlockThree 4 (.localRead ⟨"p"⟩)) (.integer 3)).after
    (inBlockThree 5 (.comparison .equal ⟨0, 4⟩ ⟨0, 3⟩)) (.other ())
  built := Graph.built_ofSteps (by decide +kernel)
  nodes := by decide +kernel
  test_eq := rfl
  operands_first _ _ _ :=
    (Graph.built_ofSteps (by decide +kernel)).wellFormed.forall_nodesOf
      (P := fun _ pre n _ => ∀ m ∈ n.kind.operands, ∃ k ∈ pre, k.id = m) (by decide +kernel)
  silent _ _ _ := by simp
  bound := binds_parameter (by decide +kernel)
  covered := ⟨true, covers_atThree⟩
  runs := by
    have hnodes : testedTwice.nodesOf ⟨0, 3⟩ = [] ++ [inBlockThree 0 (.localRead ⟨"p"⟩)] ++
        [inBlockThree 1 (.literal (.integer 7))] ++
        [inBlockThree 2 (.comparison .notEqual ⟨0, 0⟩ ⟨0, 1⟩)] ++
        [inBlockThree 3 (.literal (.integer 3))] ++ [inBlockThree 4 (.localRead ⟨"p"⟩)] ++
        [inBlockThree 5 (.comparison .equal ⟨0, 4⟩ ⟨0, 3⟩)] := by
      decide +kernel
    rw [hnodes]
    exact .snoc (.snoc (.snoc (.snoc (.snoc (.snoc .nil rfl) rfl) trivial) rfl) rfl) trivial

/-- The literal 3 joins what the first test has split, and the second test compares a read that no
assignment has overtaken. -/
theorem testedTwice_stores_cover :
    testedTwiceRun.stop.Verdict testedTwiceRun.test.kind true ∧ testedTwiceRun.OneStoreEach ∧
      testedTwiceRun.ReadsCurrent ∧
      Covers (testedTwiceRun.output.side true) testedTwiceRun.stop.locals := by
  have hverdict : testedTwiceRun.stop.Verdict testedTwiceRun.test.kind true := iff_of_true rfl rfl
  have hone : testedTwiceRun.OneStoreEach := by
    intro pre n post hsplit
    exact testedTwiceRun.built.wellFormed.forall_nodesOf
      (P := fun _ pre n _ => n.kind.isEquality = true → oneStore true pre = true)
      (by decide +kernel) hsplit
  have hcurrent : testedTwiceRun.ReadsCurrent := by
    rintro pre k mid x hbefore - - j hj ⟨m, hassigns⟩
    have hall : ∀ j ∈ testedTwiceRun.before, ∀ y m, j.kind ≠ .assignment y m := by
      simp [testedTwiceRun, inBlockThree]
    exact hall j (by simp [hbefore, hj]) x m hassigns
  exact ⟨hverdict, hone, hcurrent,
    (test_stores_cover_up_to_stale_reads testedTwiceRun true hverdict).2.2 hone hcurrent⟩

/-- The run of the overtaken read with parameter 3. -/
def overtakenRun : TestRun Unit where
  graph := overtakenRead
  block := ⟨0, 3⟩
  before := [inBlockThree 0 (.localRead ⟨"p"⟩), inBlockThree 1 (.literal (.integer 5)),
    inBlockThree 2 (.assignment ⟨"p"⟩ ⟨0, 1⟩), inBlockThree 3 (.literal (.integer 3))]
  test := inBlockThree 4 (.comparison .equal ⟨0, 0⟩ ⟨0, 3⟩)
  equalOn := true
  left := ⟨0, 0⟩
  right := ⟨0, 3⟩
  findings := {}
  input := .single (initial (.lambda [⟨"p"⟩]))
  start := atThree
  stop := ((((atThree.after (inBlockThree 0 (.localRead ⟨"p"⟩)) (.integer 3)).after
    (inBlockThree 1 (.literal (.integer 5))) (.integer 5)).after
    (inBlockThree 2 (.assignment ⟨"p"⟩ ⟨0, 1⟩)) (.integer 5)).after
    (inBlockThree 3 (.literal (.integer 3))) (.integer 3)).after
    (inBlockThree 4 (.comparison .equal ⟨0, 0⟩ ⟨0, 3⟩)) (.other ())
  built := Graph.built_ofSteps (by decide +kernel)
  nodes := by decide +kernel
  test_eq := rfl
  operands_first _ _ _ :=
    (Graph.built_ofSteps (by decide +kernel)).wellFormed.forall_nodesOf
      (P := fun _ pre n _ => ∀ m ∈ n.kind.operands, ∃ k ∈ pre, k.id = m) (by decide +kernel)
  silent _ _ _ := by simp
  bound := binds_parameter (by decide +kernel)
  covered := ⟨true, covers_atThree⟩
  runs := by
    have hnodes : overtakenRead.nodesOf ⟨0, 3⟩ = [] ++ [inBlockThree 0 (.localRead ⟨"p"⟩)] ++
        [inBlockThree 1 (.literal (.integer 5))] ++
        [inBlockThree 2 (.assignment ⟨"p"⟩ ⟨0, 1⟩)] ++
        [inBlockThree 3 (.literal (.integer 3))] ++
        [inBlockThree 4 (.comparison .equal ⟨0, 0⟩ ⟨0, 3⟩)] := by
      decide +kernel
    rw [hnodes]
    exact .snoc (.snoc (.snoc (.snoc (.snoc .nil rfl) rfl) rfl) rfl) trivial

/-- The sides are equal, but the store for that outcome has nothing left for `p`, which is 5. -/
theorem overtakenRead_store_not_covering :
    overtakenRun.stop.Verdict overtakenRun.test.kind true ∧
      ¬ Covers (overtakenRun.output.side true) overtakenRun.stop.locals := by
  refine ⟨iff_of_true rfl rfl, fun hcovers => ?_⟩
  obtain ⟨c, hc, hdescribes⟩ := hcovers ⟨"p"⟩ (.integer 5) rfl
  have hbottom : (overtakenRun.output.side true).get? ⟨"p"⟩ = some .bottom := by decide +kernel
  obtain rfl := Option.some.inj (hbottom.symm.trans hc)
  exact hdescribes

end Constants

end FlowFixpoint
