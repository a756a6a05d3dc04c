/-
# FlowFixpoint.Proofs.MergedReads — what a read finds after a merge.

A join of environments takes a key that one side does not bind from the other side, as if nothing
had been known to reach there. A read of a local that the store does not bind takes it for unknown,
as if anything could have. The two do not fit together: where one store does not bind a local and
the other binds it to something definite, a read on the join finds that, and so does a read on the
regular store of a split flow. This is the only exception. In every other case a read on the join is
at or above a read on either store, and a read on the split flow itself always is at or above a read
on either of its stores.
-/
import FlowFixpoint.Analyses.Constants
import FlowFixpoint.Fixpoint.Run
import FlowFixpoint.Proofs.BuiltGraph
import FlowFixpoint.Proofs.JoinLaws

namespace FlowFixpoint

variable {V : Type}

/-! ## Orders with an unknown value on top -/

theorem Flat.below_top {α : Type} [DecidableEq α] (a : Flat α) : Below a .top := by
  cases a <;> rfl

theorem Nullness.below_maybeNull (a : Nullness) : Below a .maybeNull := by
  cases a <;> rfl

/-- The unknown value is below nothing else. -/
theorem below_unknown_iff [Join V] [LawfulJoin V] {unknown v : V} (h : ∀ u : V, Below u unknown) :
    Below unknown v ↔ v = unknown := by
  constructor
  · intro hbelow
    calc v = join v unknown := hbelow.symm
      _ = join unknown v := join_comm v unknown
      _ = unknown := h v
  · rintro rfl
    exact .refl v

/-! ## Look-ups in a join -/

/-- The local is bound in the second store only, and to something else than the unknown value. -/
def BoundOnlyIn (unknown : V) (s t : Env LocalVar V) (x : LocalVar) : Prop :=
  s.get? x = none ∧ ∃ v, t.get? x = some v ∧ v ≠ unknown

/-- A look-up in a join is at or above a look-up in one of the stores, unless only the other one
binds the local. -/
theorem Env.below_getD_join [Join V] [LawfulJoin V] {unknown : V} (h : ∀ u : V, Below u unknown)
    (s t : Env LocalVar V) (x : LocalVar) :
    Below ((s.get? x).getD unknown) (((join s t).get? x).getD unknown) ↔
      ¬ BoundOnlyIn unknown s t x := by
  rw [get?_join]
  cases hs : s.get? x with
  | none =>
    cases ht : t.get? x with
    | none => simp [BoundOnlyIn, ht, Below.refl]
    | some v => simp [BoundOnlyIn, hs, ht, below_unknown_iff h]
  | some u =>
    cases ht : t.get? x with
    | none => simp [BoundOnlyIn, hs, Below.refl]
    | some v => simp [BoundOnlyIn, hs, Below.join_left]

/-! ## Reads -/

namespace Analysis

/-- What a node yields for the arriving flow. -/
def reading {S : Type} (a : Analysis V S) (scene : Scene V) (n : Node) (flow : Flow S) : Option V :=
  (a.transfer scene n flow).value

/-- A read joins what the two stores of the flow have for the local, the unknown value where they do
not bind it. -/
def ReadsLocals [Join V] (a : Analysis V (Env LocalVar V)) (unknown : V) : Prop :=
  ∀ scene n x flow, n.kind = .localRead x → a.reading scene n flow =
    some (join ((flow.onTrue.get? x).getD unknown) ((flow.onFalse.get? x).getD unknown))

/-- How reads of a local before and after a merge compare in an order. -/
structure ReadsMerge [Join V] (a : Analysis V (Env LocalVar V)) (unknown : V) (le : V → V → Prop)
    (x : LocalVar) : Prop where
  /-- On a join, against one of the stores. -/
  joined : ∀ scene n, n.kind = .localRead x → ∀ s t, ∃ alone merged,
    a.reading scene n (.single s) = some alone ∧
      a.reading scene n (.single (join s t)) = some merged ∧
      (le alone merged ↔ ¬ BoundOnlyIn unknown s t x)
  /-- On the regular store of a flow, against its store for an outcome. -/
  regular : ∀ scene n, n.kind = .localRead x → ∀ (flow : Flow (Env LocalVar V)) (outcome : Bool),
    ∃ alone merged, a.reading scene n (.single (flow.side outcome)) = some alone ∧
      a.reading scene n (.single flow.regular) = some merged ∧
      (le alone merged ↔ ¬ BoundOnlyIn unknown (flow.side outcome) (flow.side !outcome) x)
  /-- On a flow itself, against its store for an outcome. -/
  whole : ∀ scene n, n.kind = .localRead x → ∀ (flow : Flow (Env LocalVar V)) (outcome : Bool),
    ∃ alone merged, a.reading scene n (.single (flow.side outcome)) = some alone ∧
      a.reading scene n flow = some merged ∧ le alone merged
  /-- Where only the other store binds the local, the one read is unknown and the other wins. -/
  exposed : ∀ scene n, n.kind = .localRead x → ∀ s t, BoundOnlyIn unknown s t x →
    a.reading scene n (.single s) = some unknown ∧
      a.reading scene n (.single (join s t)) = t.get? x

variable [Join V] [LawfulJoin V] {a : Analysis V (Env LocalVar V)} {unknown : V}

theorem ReadsLocals.reading_single (ha : a.ReadsLocals unknown) {scene : Scene V} {n : Node}
    {x : LocalVar} (hn : n.kind = .localRead x) (s : Env LocalVar V) :
    a.reading scene n (.single s) = some ((s.get? x).getD unknown) := by
  rw [ha scene n x _ hn]
  exact congrArg some (join_self _)

theorem ReadsLocals.readsMerge (ha : a.ReadsLocals unknown) (h : ∀ u : V, Below u unknown)
    (x : LocalVar) : a.ReadsMerge unknown Below x where
  joined scene n hn s t :=
    ⟨_, _, ha.reading_single hn s, ha.reading_single hn _, Env.below_getD_join h s t x⟩
  regular scene n hn flow outcome := by
    refine ⟨_, _, ha.reading_single hn _, ha.reading_single hn _, ?_⟩
    rw [flow.regular_eq_join]
    cases outcome with
    | true => exact Env.below_getD_join h flow.onTrue flow.onFalse x
    | false =>
      rw [join_comm]
      exact Env.below_getD_join h flow.onFalse flow.onTrue x
  whole scene n hn flow outcome := by
    refine ⟨_, _, ha.reading_single hn _, ha scene n x flow hn, ?_⟩
    cases outcome with
    | true => exact .join_left _ _
    | false => exact .join_right _ _
  exposed scene n hn s t hbound := by
    obtain ⟨hs, v, hv, -⟩ := hbound
    rw [ha.reading_single hn, ha.reading_single hn, Env.get?_join, hs, hv]
    exact ⟨rfl, rfl⟩

end Analysis

theorem Constants.readsLocals : Constants.analysis.ReadsLocals .top := by
  intro scene n x flow hn
  simp [Analysis.reading, Constants.analysis, Constants.transfer, hn, Outcome.keep,
    Constants.lookup, join]

theorem Nullness.readsLocals : Nullness.analysis.ReadsLocals .maybeNull := by
  intro scene n x flow hn
  simp [Analysis.reading, Nullness.analysis, Nullness.transfer, hn, Outcome.keep,
    Nullness.lookup, join]

/-- A merge makes a read of a local, for constants or for nullness, more definite exactly where only
the other store binds the local, to something definite. -/
theorem merged_reads_lose_unbound_locals (x : LocalVar) :
    Constants.analysis.ReadsMerge .top (fun u v => u.isBelow v = true) x ∧
      Nullness.analysis.ReadsMerge .maybeNull Below x := by
  refine ⟨?_, Nullness.readsLocals.readsMerge Nullness.below_maybeNull x⟩
  have hbelow : (fun u v : Constants.Constant => u.isBelow v = true) = Below := by
    funext u v
    exact propext Flat.isBelow_iff
  rw [hbelow]
  exact Constants.readsLocals.readsMerge Flat.below_top x

/-- Code that captures `x`, tests it against 5, and reads it on each outcome and after they meet. -/
def capturedTest : Graph :=
  .ofSteps (.lambda [])
    [.addBlock .regular, .addBlock .conditional, .addBlock .regular, .addBlock .regular,
      .addBlock .regular, .push ⟨0, 3⟩ (.localRead ⟨"x"⟩), .push ⟨0, 3⟩ (.literal (.integer 5)),
      .push ⟨0, 3⟩ (.comparison .equal ⟨0, 0⟩ ⟨0, 1⟩), .push ⟨0, 5⟩ (.localRead ⟨"x"⟩),
      .push ⟨0, 6⟩ (.localRead ⟨"x"⟩), .push ⟨0, 7⟩ (.localRead ⟨"x"⟩),
      .addEdge ⟨0, 0⟩ ⟨0, 3⟩ .unconditional, .addEdge ⟨0, 3⟩ ⟨0, 4⟩ .unconditional,
      .addEdge ⟨0, 4⟩ ⟨0, 5⟩ .onTrue, .addEdge ⟨0, 4⟩ ⟨0, 6⟩ .onFalse,
      .addEdge ⟨0, 5⟩ ⟨0, 7⟩ .unconditional, .addEdge ⟨0, 6⟩ ⟨0, 7⟩ .unconditional,
      .addEdge ⟨0, 7⟩ ⟨0, 1⟩ .unconditional]

/-- Where the test fails nothing is known of `x`, and yet `x` is 5 after the merge. The nullness of
`x` becomes definite as well when a store that binds it is joined to one that does not. -/
theorem capturedTest_known_after_merge :
    capturedTest.Built ∧
      (∃ p, Constants.analysis.solve (.default .debug) capturedTest = .ok p ∧
        p.findings.values[(⟨0, 4⟩ : NodeId)]? = some .top ∧
        p.findings.values[(⟨0, 5⟩ : NodeId)]? = some (.known 5)) ∧
      Flat.isBelow .top (.known (5 : Int64)) = false ∧
      Nullness.analysis.reading ⟨capturedTest, ∅, false⟩
        ⟨⟨0, 0⟩, ⟨0, 3⟩, .localRead ⟨"x"⟩, []⟩ (.single ∅) = some .maybeNull ∧
      Nullness.analysis.reading ⟨capturedTest, ∅, false⟩
        ⟨⟨0, 0⟩, ⟨0, 3⟩, .localRead ⟨"x"⟩, []⟩ (.single (join ∅ (Env.set ∅ ⟨"x"⟩ .nonNull))) =
          some .nonNull ∧
      ¬ Below Nullness.maybeNull .nonNull := by
  obtain ⟨p, hp⟩ :=
    exists_eq_ok (x := Constants.analysis.solve (.default .debug) capturedTest) (by decide +kernel)
  have hrecorded : (Constants.analysis.solve (.default .debug) capturedTest).toOption.map (fun p =>
      (p.findings.values[(⟨0, 4⟩ : NodeId)]?, p.findings.values[(⟨0, 5⟩ : NodeId)]?)) =
        some (some .top, some (.known 5)) := by
    decide +kernel
  simp only [hp, Except.toOption, Option.map_some, Option.some.injEq, Prod.mk.injEq] at hrecorded
  refine ⟨Graph.built_ofSteps (by decide +kernel), ⟨p, hp, hrecorded⟩, rfl, by decide +kernel,
    by decide +kernel, ?_⟩
  intro hbelow
  cases hbelow

end FlowFixpoint
