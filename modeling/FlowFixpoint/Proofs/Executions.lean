/-
# FlowFixpoint.Proofs.Executions — concrete executions of a graph.

A machine holds the values of the locals that have one and the results of the nodes that have run.
Running a node yields a value: integer literals, reads, assignments and arithmetic yield what they
say, as long as arithmetic neither overflows nor divides by zero; everything else yields any value
at all. A read of a local without a value yields nothing, so that the execution stops there.

`Arrives` is reached from the entry, where exactly the parameters have values: the nodes of a block
run in order, and then any of its edges may be taken. Only a conditional block that is entered
straight from an equality test takes the branch that the test decided.
-/
import FlowFixpoint.Domain.Integer
import FlowFixpoint.Proofs.GraphViews

namespace FlowFixpoint

/-! ## Values and arithmetic -/

/-- A value at run time: a 64-bit integer or something else. -/
inductive Datum (α : Type) where
  | integer (value : Int64)
  | other (value : α)

/-- Arithmetic that neither overflows nor divides by zero. Division truncates toward zero, and a
remainder has the sign of the dividend. -/
def ArithOp.Gives (op : ArithOp) (l r k : Int64) : Prop :=
  match op with
  | .add => k.toInt = l.toInt + r.toInt
  | .subtract => k.toInt = l.toInt - r.toInt
  | .multiply => k.toInt = l.toInt * r.toInt
  | .divide => r.toInt ≠ 0 ∧ k.toInt = l.toInt.tdiv r.toInt
  | .remainder =>
    r.toInt ≠ 0 ∧ Integer.Fits (l.toInt.tdiv r.toInt) ∧ k.toInt = l.toInt.tmod r.toInt

/-- Is the node a test for equality or inequality? -/
def NodeKind.isEquality : NodeKind → Bool
  | .comparison .equal _ _ | .comparison .notEqual _ _ => true
  | _ => false

/-! ## Running nodes -/

/-- What an execution has computed so far. -/
structure Machine (α : Type) where
  locals : LocalVar → Option (Datum α)
  results : NodeId → Option (Datum α)

namespace Machine

variable {α : Type}

/-- The values that a node may yield. -/
def Yields (σ : Machine α) (kind : NodeKind) (v : Datum α) : Prop :=
  match kind with
  | .literal (.integer k) => v = .integer k
  | .localRead x => σ.locals x = some v
  | .assignment _ m => σ.results m = some v
  | .arithmetic op left right => ∀ l r k, σ.results left = some (.integer l) →
      σ.results right = some (.integer r) → op.Gives l r k → v = .integer k
  | .minus m => ∀ l k, σ.results m = some (.integer l) → k.toInt = -l.toInt → v = .integer k
  | _ => True

/-- The machine after a node has yielded a value. -/
def after (σ : Machine α) (n : Node) (v : Datum α) : Machine α where
  locals x :=
    match n.kind with
    | .assignment y _ => if x = y then some v else σ.locals x
    | _ => σ.locals x
  results m := if m = n.id then some v else σ.results m

/-- Nodes run one after the other. -/
inductive Runs (σ : Machine α) : List Node → Machine α → Prop
  | nil : Runs σ [] σ
  | snoc {ns : List Node} {τ : Machine α} {n : Node} {v : Datum α} :
      Runs σ ns τ → τ.Yields n.kind v → Runs σ (ns ++ [n]) (τ.after n v)

/-- The outcome of an equality test; every other node allows both. -/
def Verdict (σ : Machine α) (kind : NodeKind) (outcome : Bool) : Prop :=
  match kind with
  | .comparison .equal left right => outcome = true ↔ σ.results left = σ.results right
  | .comparison .notEqual left right => outcome = true ↔ σ.results left ≠ σ.results right
  | _ => True

/-- The outcome that nodes leave behind: that of the last one, if it is an equality test. -/
def Leaves (σ : Machine α) (ns : List Node) (test : Option Bool) : Prop :=
  match ns.getLast? with
  | none => test = none
  | some n =>
    if n.kind.isEquality then ∃ outcome, test = some outcome ∧ σ.Verdict n.kind outcome
    else test = none

theorem verdict_of_not_equality {kind : NodeKind} (h : kind.isEquality = false) (σ : Machine α)
    (outcome : Bool) : σ.Verdict kind outcome := by
  unfold Verdict
  split
  · cases h
  · cases h
  · trivial

/-- One of the two outcomes is the right one. -/
theorem exists_verdict (σ : Machine α) (kind : NodeKind) : ∃ outcome, σ.Verdict kind outcome := by
  classical
  cases h : kind.isEquality with
  | false => exact ⟨true, verdict_of_not_equality h σ true⟩
  | true =>
    unfold NodeKind.isEquality at h
    split at h
    · next left right => exact ⟨decide (σ.results left = σ.results right), by simp [Verdict]⟩
    · next left right => exact ⟨decide (σ.results left ≠ σ.results right), by simp [Verdict]⟩
    · cases h

theorem results_after_self (σ : Machine α) (n : Node) (v : Datum α) :
    (σ.after n v).results n.id = some v :=
  if_pos rfl

theorem results_after_of_ne (σ : Machine α) (n : Node) (v : Datum α) {m : NodeId}
    (h : m ≠ n.id) : (σ.after n v).results m = σ.results m :=
  if_neg h

/-- A node that does not assign a local leaves it as it is. -/
theorem locals_after_of_not_assigns (σ : Machine α) {n : Node} (v : Datum α) {x : LocalVar}
    (h : ¬ n.Assigns x) : (σ.after n v).locals x = σ.locals x := by
  simp only [after]
  split
  · next y m hkind =>
    refine if_neg ?_
    rintro rfl
    exact h ⟨m, hkind⟩
  · rfl

theorem runs_nil {σ τ : Machine α} (h : Runs σ [] τ) : τ = σ := by
  generalize hns : ([] : List Node) = ns at h
  cases h with
  | nil => rfl
  | snoc _ _ => simp at hns

theorem runs_concat {σ τ : Machine α} {ns : List Node} {n : Node} (h : Runs σ (ns ++ [n]) τ) :
    ∃ mid v, Runs σ ns mid ∧ mid.Yields n.kind v ∧ τ = mid.after n v := by
  generalize hns : ns ++ [n] = all at h
  cases h with
  | nil => simp at hns
  | snoc hruns hyields =>
    obtain ⟨rfl, rfl⟩ := List.append_singleton_inj.mp hns
    exact ⟨_, _, hruns, hyields, rfl⟩

end Machine

/-! ## Executions -/

/-- May an edge with this label be taken out of the block? Only a conditional block that is entered
straight from an equality test has no choice. -/
def Graph.Takes (g : Graph) (b : BlockId) (test : Option Bool) (label : EdgeLabel) : Prop :=
  ∀ block outcome, g.block? b = some block → block.kind = .conditional → test = some outcome →
    (label = .onTrue → outcome = true) ∧ (label = .onFalse → outcome = false)

/-- Some execution arrives at the beginning of the block with this machine, `test` being the outcome
of the equality test that ended the block before, if one did. -/
inductive Arrives {α : Type} (g : Graph) : BlockId → Machine α → Option Bool → Prop
  | entry {σ : Machine α} :
      (∀ x, (σ.locals x).isSome ↔ x ∈ g.code.parameters) → Arrives g g.entry σ none
  | along {σ τ : Machine α} {test test' : Option Bool} {e : Edge} :
      Arrives g e.source σ test → σ.Runs (g.nodesOf e.source) τ → e ∈ g.edges →
      g.Takes e.source test e.label → τ.Leaves (g.nodesOf e.source) test' →
      Arrives g e.target τ test'

/-- An execution passes an empty block unchanged. -/
theorem Arrives.past_empty {α : Type} {g : Graph} {e : Edge} {σ : Machine α} {test : Option Bool}
    (h : Arrives g e.source σ test) (hempty : g.nodesOf e.source = []) (he : e ∈ g.edges)
    (htakes : g.Takes e.source test e.label) : Arrives g e.target σ none := by
  refine .along h ?_ he htakes ?_
  · rw [hempty]
    exact .nil
  · rw [hempty]
    rfl

end FlowFixpoint
