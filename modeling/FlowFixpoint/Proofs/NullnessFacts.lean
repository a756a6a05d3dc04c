/-
# FlowFixpoint.Proofs.NullnessFacts — what nullness claims about one node.

Executions here have `null` for one of their values and never dereference it. What is known about a
reference allows some values and not others. The value that a node is given allows what the node
yields, as long as the arriving stores cover the locals, and the fact that a dereference or a test
puts down allows the result of the node that it is about. Whether it also allows what the local is
by now is another matter.

The two opposite facts of a test join to no fact at all, so whatever a test puts down does no harm
to the join of its two stores.
-/
import FlowFixpoint.Proofs.BranchRefinement
import FlowFixpoint.Proofs.NullnessEffects

namespace FlowFixpoint

variable {α ρ : Type}

/-! ## Runs -/

/-- The value `null`, where values that are no integers are references. -/
def Datum.null : Datum (Option ρ) := .other none

namespace Machine

/-- The values that a node may yield without dereferencing `null`. Of literals, creations and
comparisons, only the literal `null` yields it. -/
def YieldsSafely (σ : Machine (Option ρ)) (kind : NodeKind) (v : Datum (Option ρ)) : Prop :=
  σ.Yields kind v ∧
    match kind with
    | .literal .null => v = .null
    | .literal _ | .creation _ _ | .comparison _ _ _ => v ≠ .null
    | .fieldRead receiver _ | .call (some receiver) _ _ => σ.results receiver ≠ some .null
    | _ => True

/-- The machine after nodes have yielded values one after the other. -/
def afterAll (σ : Machine α) (steps : List (Node × Datum α)) : Machine α :=
  steps.foldl (fun σ step => σ.after step.1 step.2) σ

theorem afterAll_append (σ : Machine α) (before after : List (Node × Datum α)) :
    σ.afterAll (before ++ after) = (σ.afterAll before).afterAll after :=
  List.foldl_append

theorem afterAll_concat (σ : Machine α) (steps : List (Node × Datum α)) (n : Node) (v : Datum α) :
    σ.afterAll (steps ++ [(n, v)]) = (σ.afterAll steps).after n v := by
  rw [afterAll_append]
  rfl

/-- Each of the values is one that its node may yield when its turn comes. -/
def RunsSafely (σ : Machine (Option ρ)) : List (Node × Datum (Option ρ)) → Prop
  | [] => True
  | (n, v) :: steps => σ.YieldsSafely n.kind v ∧ (σ.after n v).RunsSafely steps

theorem RunsSafely.yieldsSafely {σ : Machine (Option ρ)}
    {before rest : List (Node × Datum (Option ρ))} {n : Node} {v : Datum (Option ρ)}
    (h : σ.RunsSafely (before ++ (n, v) :: rest)) :
    (σ.afterAll before).YieldsSafely n.kind v := by
  induction before generalizing σ with
  | nil => exact h.1
  | cons step before ih => exact ih h.2

/-- Nodes that do not assign a local leave it as it is. -/
theorem locals_afterAll {steps : List (Node × Datum α)} {x : LocalVar} (σ : Machine α)
    (h : ∀ step ∈ steps, ¬ step.1.Assigns x) : (σ.afterAll steps).locals x = σ.locals x := by
  induction steps generalizing σ with
  | nil => rfl
  | cons step steps ih =>
    obtain ⟨hstep, hsteps⟩ := List.forall_mem_cons.mp h
    exact (ih (σ.after step.1 step.2) hsteps).trans (σ.locals_after_of_not_assigns step.2 hstep)

/-- The result of a node stays until the node runs again. -/
theorem results_afterAll {steps : List (Node × Datum α)} {m : NodeId} (σ : Machine α)
    (h : ∀ step ∈ steps, m ≠ step.1.id) : (σ.afterAll steps).results m = σ.results m := by
  induction steps generalizing σ with
  | nil => rfl
  | cons step steps ih =>
    obtain ⟨hstep, hsteps⟩ := List.forall_mem_cons.mp h
    exact (ih (σ.after step.1 step.2) hsteps).trans (σ.results_after_of_ne step.1 step.2 hstep)

end Machine

namespace Nullness

/-! ## What is allowed -/

/-- What is known about a reference allows the value. -/
def Allows : Nullness → Datum (Option ρ) → Prop
  | null, v => v = .null
  | nonNull, v => v ≠ .null
  | maybeNull, _ => True

theorem upward_allows : Upward (Allows : Nullness → Datum (Option ρ) → Prop) := by
  intro c d v h hbelow
  have hjoin : d.lub c = d := hbelow
  by_cases hdc : d = c
  · exact hdc ▸ h
  · rw [lub, if_neg hdc] at hjoin
    subst hjoin
    trivial

/-- Every local that has a value is bound to something that allows it. -/
def Covers (store : NullnessStore) (locals : LocalVar → Option (Datum (Option ρ))) : Prop :=
  CoveredBy Allows store locals

section Node

variable {g : Graph} {n : Node} {scene : Scene Nullness} {φ : Flow NullnessStore}
  {σ : Machine (Option ρ)} {v w : Datum (Option ρ)} {u : Nullness} {m : NodeId} {outcome : Bool}

/-- What a node yields is allowed by the value that its transfer gives it, if what is recorded
allows its operands and the arriving flow covers the locals. -/
theorem allows_of_yieldsSafely
    (hoperand : ∀ m ∈ reads n.kind, ∃ w, σ.results m = some w ∧
      ∀ u, scene.value? m = some u → Allows u w)
    (hcovers : Covers φ.regular σ.locals) (hyields : σ.YieldsSafely n.kind v)
    (hu : (transfer scene n φ).value = some u) : Allows u v := by
  obtain ⟨hyields, hsafe⟩ := hyields
  cases hkind : n.kind with
  | literal l =>
    simp only [transfer, hkind, Outcome.single, Option.some.injEq] at hu
    simp only [hkind] at hsafe
    subst hu
    cases l <;> exact hsafe
  | creation c arguments =>
    simp only [transfer, hkind, Outcome.single, Option.some.injEq] at hu
    simp only [hkind] at hsafe
    exact hu ▸ hsafe
  | localRead x =>
    simp only [transfer, hkind, Outcome.keep, Option.some.injEq] at hu
    simp only [Machine.Yields, hkind] at hyields
    subst hu
    exact CoveredBy.read upward_allows
      (fun _ => trivial : ∀ v : Datum (Option ρ), Allows maybeNull v) hcovers hyields
  | assignment x m =>
    simp only [transfer, hkind, Outcome.single, Option.some.injEq] at hu
    simp only [Machine.Yields, hkind] at hyields
    obtain ⟨w, hw, hallows⟩ := hoperand m (by simp [hkind, reads])
    obtain rfl : w = v := by simpa [hw] using hyields
    subst hu
    cases hvalue : scene.value? m with
    | none => trivial
    | some u => exact hallows u hvalue
  | comparison op l r =>
    have hvalue : (transfer scene n φ).value = some nonNull := by
      cases op <;> simp [transfer, hkind, Outcome.single, value_test]
    simp only [hkind] at hsafe
    obtain rfl := Option.some.inj (hvalue.symm.trans hu)
    exact hsafe
  | fieldRead receiver field =>
    simp only [transfer, hkind, dereference, Outcome.throwing, Outcome.single,
      Option.some.injEq] at hu
    subst hu
    trivial
  | call receiver method arguments =>
    cases receiver <;>
    · simp only [transfer, hkind, dereference, Outcome.throwing, Outcome.single,
        Option.some.injEq] at hu
      subst hu
      trivial
  | _ => simp [transfer, hkind, Outcome.pass, Outcome.single] at hu

/-- A test learns `null` on the outcome on which its sides are equal. -/
theorem learned_of_test? {kind : NodeKind} {equalOn : Bool} {l r : NodeId}
    (h : kind.test? = some (equalOn, l, r)) (outcome : Bool) :
    learned kind outcome = if outcome = equalOn then null else nonNull := by
  rcases NodeKind.test?_cases h with ⟨rfl, rfl⟩ | ⟨rfl, rfl⟩ <;> cases outcome <;> rfl

/-- The sides of a test against `null` are equal exactly if the tested one is `null`. -/
theorem results_eq_iff_of_test? {kind : NodeKind} {equalOn : Bool} {l r : NodeId}
    (h : kind.test? = some (equalOn, l, r)) (hsubject : subject? g kind = some m)
    (hm : σ.results m = some w)
    (hnull : ∀ k ∈ kind.operands, g.isNullLiteral k = true → σ.results k = some .null) :
    σ.results l = σ.results r ↔ w = .null := by
  rw [NodeKind.operands_of_test? h] at hnull
  have hsides : (if g.isNullLiteral r then some l else if g.isNullLiteral l then some r else none) =
      some m := by
    rcases NodeKind.test?_cases h with ⟨rfl, -⟩ | ⟨rfl, -⟩ <;> exact hsubject
  split_ifs at hsides with hright hleft
  · obtain rfl := Option.some.inj hsides
    rw [hm, hnull r (by simp) hright, Option.some.injEq]
  · obtain rfl := Option.some.inj hsides
    rw [hm, hnull l (by simp) hleft, Option.some.injEq, eq_comm]

/-- A fact that is put down allows the result that it is about. -/
theorem allows_learned {kind : NodeKind} (hyields : σ.YieldsSafely kind v)
    (hsubject : subject? g kind = some m) (hm : σ.results m = some w)
    (hnull : ∀ k ∈ kind.operands, g.isNullLiteral k = true → σ.results k = some .null)
    (hverdict : σ.Verdict kind outcome) : Allows (learned kind outcome) w := by
  cases hequality : kind.isEquality with
  | true =>
    obtain ⟨equalOn, l, r, htest⟩ := NodeKind.exists_test? hequality
    have hiff : outcome = equalOn ↔ w = .null :=
      ((Machine.verdict_of_test? htest).mp hverdict).trans
        (results_eq_iff_of_test? htest hsubject hm hnull)
    rw [learned_of_test? htest]
    split_ifs with houtcome
    · exact hiff.mp houtcome
    · exact fun hw => houtcome (hiff.mpr hw)
  | false =>
    -- a dereference, whose receiver is not `null`
    obtain ⟨-, hsafe⟩ := hyields
    unfold subject? at hsubject
    split at hsubject
    · cases hsubject
      rintro rfl
      exact hsafe hm
    · cases hsubject
      rintro rfl
      exact hsafe hm
    · cases hequality
    · cases hequality
    · cases hsubject

theorem learned_of_not_equality {kind : NodeKind} (h : kind.isEquality = false) (outcome : Bool) :
    learned kind outcome = nonNull := by
  unfold learned
  split
  · cases h
  · cases h
  · rfl

/-- Two opposite facts join to no fact, so a test leaves the join of the stores as it was but for
the tested local, of which nothing is known then. -/
theorem covers_regular_of_test {locals : LocalVar → Option (Datum (Option ρ))} {x : LocalVar}
    {kind : NodeKind} (hequality : kind.isEquality = true) (h : Covers φ.regular locals) :
    Covers (Flow.split (φ.onTrue.set x (learned kind true))
      (φ.onFalse.set x (learned kind false))).regular locals := by
  have hunknown : join (learned kind true) (learned kind false) = maybeNull := by
    obtain ⟨equalOn, l, r, htest⟩ := NodeKind.exists_test? hequality
    rw [learned_of_test? htest, learned_of_test? htest]
    cases equalOn <;> rfl
  intro y v hv
  show ∃ u, (join (φ.onTrue.set x (learned kind true))
    (φ.onFalse.set x (learned kind false))).get? y = some u ∧ Allows u v
  rw [Env.get?_join, Env.get?_set, Env.get?_set]
  by_cases hxy : x = y
  · rw [if_pos hxy, if_pos hxy]
    exact ⟨maybeNull, congrArg some hunknown, trivial⟩
  · rw [if_neg hxy, if_neg hxy, ← Env.get?_join, ← φ.regular_eq_join]
    exact h y v hv

end Node

end Nullness

end FlowFixpoint
