/-
# FlowFixpoint.Proofs.NullnessEffects — what nodes do to the flow of nullness.

A dereference and a test against `null` are about a node, the receiver or the tested side. If that
node reads a local, the fact that follows from a dereference, or from an outcome of the test, is put
down for the local. A test takes each of the two stores for its own outcome; every other node that
puts down a fact joins them first.
-/
import FlowFixpoint.Proofs.Executions
import FlowFixpoint.Proofs.JoinLaws

namespace FlowFixpoint.Nullness

/-- The node that a dereference or a test against `null` is about; a `null` on the right is looked
for first. -/
def subject? (g : Graph) : NodeKind → Option NodeId
  | .fieldRead receiver _ | .call (some receiver) _ _ => some receiver
  | .comparison .equal left right | .comparison .notEqual left right =>
    if g.isNullLiteral right then some left
    else if g.isNullLiteral left then some right
    else none
  | _ => none

/-- The local for which a dereference or a test puts down a fact. -/
def about? (g : Graph) (kind : NodeKind) : Option LocalVar := (subject? g kind).bind g.localRead?

/-- The fact that is put down for the local, given the outcome of a test. -/
def learned (kind : NodeKind) (outcome : Bool) : Nullness :=
  match kind with
  | .comparison .equal _ _ => if outcome then null else nonNull
  | .comparison .notEqual _ _ => if outcome then nonNull else null
  | _ => nonNull

theorem subject?_mem_operands {g : Graph} {kind : NodeKind} {m : NodeId}
    (h : subject? g kind = some m) : m ∈ kind.operands := by
  unfold subject? at h
  split at h
  · simp_all [NodeKind.operands]
  · simp_all [NodeKind.operands]
  · split_ifs at h <;> simp_all [NodeKind.operands]
  · split_ifs at h <;> simp_all [NodeKind.operands]
  · cases h

/-- The flow behind a node, whatever flows in and whatever is recorded. -/
inductive Passing (g : Graph) (n : Node) : Prop where
  | read (x : LocalVar) (hkind : n.kind = .localRead x)
    (h : ∀ scene φ, (transfer scene n φ).flow = φ)
  | assign (x : LocalVar) (m : NodeId) (hkind : n.kind = .assignment x m)
    (h : ∀ scene φ, (transfer scene n φ).flow =
      .single (φ.regular.set x ((scene.value? m).getD maybeNull)))
  | test (x : LocalVar) (hequality : n.kind.isEquality = true)
    (habout : about? g n.kind = some x)
    (h : ∀ (scene : Scene Nullness) φ, scene.graph = g → (transfer scene n φ).flow =
      .split (φ.onTrue.set x (learned n.kind true)) (φ.onFalse.set x (learned n.kind false)))
  | dereference (x : LocalVar) (hequality : n.kind.isEquality = false)
    (habout : about? g n.kind = some x)
    (h : ∀ (scene : Scene Nullness) φ, scene.graph = g →
      (transfer scene n φ).flow = .single (φ.regular.set x nonNull))
  | join (habout : about? g n.kind = none) (hassigns : ∀ x, ¬ n.Assigns x)
    (hread : ∀ x, n.kind ≠ .localRead x)
    (h : ∀ (scene : Scene Nullness) φ, scene.graph = g →
      (transfer scene n φ).flow = .single φ.regular)

variable {g : Graph} {n : Node}

theorem about?_of_comparison {kind : NodeKind} {left right : NodeId}
    (h : kind = .comparison .equal left right ∨ kind = .comparison .notEqual left right) :
    about? g kind = tested? g left right := by
  rcases h with rfl | rfl <;>
  · simp only [about?, subject?, tested?]
    split_ifs <;> rfl

theorem passing_of_test {op : CompareOp} {left right : NodeId}
    (hkind : n.kind = .comparison op left right) (hequality : n.kind.isEquality = true)
    (habout : about? g n.kind = tested? g left right)
    (h : ∀ scene φ, transfer scene n φ =
      Nullness.test scene (learned n.kind true) (learned n.kind false) left right φ) :
    Passing g n := by
  cases htested : tested? g left right with
  | some x =>
    refine .test x hequality (habout.trans htested) fun scene φ hscene => ?_
    rw [h, Nullness.test, hscene, htested]
    rfl
  | none =>
    refine .join (habout.trans htested) (by simp [Node.Assigns, hkind]) (by simp [hkind])
      fun scene φ hscene => ?_
    rw [h, Nullness.test, hscene, htested]
    rfl

theorem passing_of_dereference {receiver : NodeId} (hequality : n.kind.isEquality = false)
    (hassigns : ∀ x, ¬ n.Assigns x) (hread : ∀ x, n.kind ≠ .localRead x)
    (habout : about? g n.kind = g.localRead? receiver)
    (h : ∀ scene φ, transfer scene n φ = Nullness.dereference scene receiver φ) :
    Passing g n := by
  cases hlocal : g.localRead? receiver with
  | some x =>
    refine .dereference x hequality (habout.trans hlocal) fun scene φ hscene => ?_
    rw [h, Nullness.dereference, hscene, hlocal]
    rfl
  | none =>
    refine .join (habout.trans hlocal) hassigns hread fun scene φ hscene => ?_
    rw [h, Nullness.dereference, hscene, hlocal]
    rfl

/-- Every node passes the flow on in one of these ways. -/
theorem passing (g : Graph) (n : Node) : Passing g n := by
  obtain ⟨id, block, kind, trees⟩ := n
  cases kind with
  | localRead x => exact .read x rfl fun _ _ => rfl
  | assignment x m => exact .assign x m rfl fun _ _ => rfl
  | comparison op left right =>
    cases op with
    | equal => exact passing_of_test rfl rfl (about?_of_comparison (.inl rfl)) fun _ _ => rfl
    | notEqual => exact passing_of_test rfl rfl (about?_of_comparison (.inr rfl)) fun _ _ => rfl
    | less | lessOrEqual | greater | greaterOrEqual =>
      exact .join rfl (by simp [Node.Assigns]) (by simp) fun _ _ _ => rfl
  | fieldRead receiver field =>
    exact passing_of_dereference rfl (by simp [Node.Assigns]) (by simp) rfl fun _ _ => rfl
  | call receiver method arguments =>
    cases receiver with
    | none => exact .join rfl (by simp [Node.Assigns]) (by simp) fun _ _ _ => rfl
    | some receiver =>
      exact passing_of_dereference rfl (by simp [Node.Assigns]) (by simp) rfl fun _ _ => rfl
  | literal | declaration | arithmetic | logical | not | minus | creation | ret | throwing
  | marker => exact .join rfl (by simp [Node.Assigns]) (by simp) fun _ _ _ => rfl

variable {scene : Scene Nullness} {φ : Flow NullnessStore} {x : LocalVar}

/-- A test puts down its fact in the store of each outcome. -/
theorem side_of_test (hequality : n.kind.isEquality = true)
    (habout : about? scene.graph n.kind = some x) (outcome : Bool) :
    (transfer scene n φ).flow.side outcome = (φ.side outcome).set x (learned n.kind outcome) := by
  cases passing scene.graph n with
  | read y hkind => simp [hkind, NodeKind.isEquality] at hequality
  | assign y m hkind => simp [hkind, NodeKind.isEquality] at hequality
  | test y _ habout' hflow =>
    obtain rfl := Option.some.inj (habout'.symm.trans habout)
    rw [hflow scene φ rfl]
    cases outcome <;> rfl
  | dereference y hequality' => simp [hequality'] at hequality
  | join habout' => simp [habout'] at habout

/-- A dereference puts down its fact in the join of the stores. -/
theorem flow_of_dereference (hequality : n.kind.isEquality = false)
    (habout : about? scene.graph n.kind = some x) :
    (transfer scene n φ).flow = .single (φ.regular.set x nonNull) := by
  cases passing scene.graph n with
  | read y hkind => simp [hkind, about?, subject?] at habout
  | assign y m hkind => simp [hkind, about?, subject?] at habout
  | test y hequality' => simp [hequality'] at hequality
  | dereference y _ habout' hflow =>
    obtain rfl := Option.some.inj (habout'.symm.trans habout)
    exact hflow scene φ rfl
  | join habout' => simp [habout'] at habout

end FlowFixpoint.Nullness
