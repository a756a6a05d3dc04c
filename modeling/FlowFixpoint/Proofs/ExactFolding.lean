/-
# FlowFixpoint.Proofs.ExactFolding — folding against the arithmetic of the integers.

What two known operands fold to is fixed by the integers alone: the sum, difference, product,
quotient or remainder, if there is one and it is a 64-bit integer, and the unknown value otherwise.
One pair of operands is an exception. The least integer leaves no remainder when it is divided by
minus one, but since the quotient does not fit the remainder is given up as well.

Quotient and remainder are not taken from a division here but from the equation that ties them
together, with a remainder smaller than the divisor and on the dividend's side of zero.

Folding and negation keep the flat order, so that knowing less about the operands never leads to
knowing more about the result.
-/
import FlowFixpoint.Proofs.MachineArithmetic

namespace FlowFixpoint

/-! ## Division -/

/-- `q` and `m` are quotient and remainder of `l` by `r`. The remainder is on the same side of zero as
the dividend, and so the quotient is truncated toward zero. -/
structure TruncatedDivision (l r q m : Int) : Prop where
  exact : m + r * q = l
  small : m.natAbs < r.natAbs
  nonneg : 0 ≤ l → 0 ≤ m
  nonpos : l ≤ 0 → m ≤ 0

/-- There is one quotient and one remainder, unless the divisor is zero. -/
theorem truncatedDivision_iff {l r q m : Int} :
    TruncatedDivision l r q m ↔ r ≠ 0 ∧ l.tdiv r = q ∧ l.tmod r = m := by
  constructor
  · intro h
    have hsmall := h.small
    have hr : r ≠ 0 := by omega
    refine ⟨hr, ?_⟩
    rcases Int.le_total 0 l with hl | hl
    · have hm := h.nonneg hl
      exact (Int.tdiv_tmod_unique hl hr).mpr ⟨h.exact, hm, by omega⟩
    · have hm := h.nonpos hl
      exact (Int.tdiv_tmod_unique' hl hr).mpr ⟨h.exact, by omega, hm⟩
  · rintro ⟨hr, hdiv⟩
    have hpositive : 0 ≤ l → m + r * q = l ∧ 0 ≤ m ∧ m < r.natAbs :=
      fun hl => (Int.tdiv_tmod_unique hl hr).mp hdiv
    have hnegative : l ≤ 0 → m + r * q = l ∧ -r.natAbs < m ∧ m ≤ 0 :=
      fun hl => (Int.tdiv_tmod_unique' hl hr).mp hdiv
    exact
      { exact := by
          rcases Int.le_total 0 l with hl | hl
          · exact (hpositive hl).1
          · exact (hnegative hl).1
        small := by omega
        nonneg := fun hl => (hpositive hl).2.1
        nonpos := fun hl => (hnegative hl).2.2 }

/-! ## Results -/

/-- The result of an operator on the integers, where it is defined. -/
def ArithOp.Result (op : ArithOp) (l r k : Int) : Prop :=
  match op with
  | .add => k = l + r
  | .subtract => k = l - r
  | .multiply => k = l * r
  | .divide => ∃ m, TruncatedDivision l r k m
  | .remainder => ∃ q, TruncatedDivision l r q k

/-- The remainder that is given up because there is no quotient. -/
def ArithOp.GivenUp (op : ArithOp) (l r : Int64) : Prop :=
  op = .remainder ∧ l = Int64.minValue ∧ r = -1

theorem Integer.checked?_eq_some_iff {i : Int} {k : Int64} :
    Integer.checked? i = some k ↔ k.toInt = i := by
  constructor
  · exact Constants.toInt_of_checked?
  · rintro rfl
    exact Integer.checked?_toInt k

/-- One flat value is below another if it is the least, the other the greatest, or they agree. -/
theorem Flat.isBelow_cases {α : Type} [DecidableEq α] {a b : Flat α} :
    a.isBelow b = true ↔ a = .bottom ∨ b = .top ∨ a = b := by
  cases a <;> cases b <;> simp [isBelow]

namespace Constants

/-- Exact arithmetic, with the condition that the analysis puts on remainders. -/
theorem integerResult?_eq_some_iff {op : ArithOp} {l r k : Int} :
    integerResult? op l r = some k ↔
      op.Result l r k ∧ (op = .remainder → Integer.Fits (l.tdiv r)) := by
  cases op with
  | add => simp [integerResult?, ArithOp.Result, eq_comm]
  | subtract => simp [integerResult?, ArithOp.Result, eq_comm]
  | multiply => simp [integerResult?, ArithOp.Result, eq_comm]
  | divide => simp [integerResult?, ArithOp.Result, truncatedDivision_iff]
  | remainder =>
    simp only [integerResult?, ArithOp.Result, truncatedDivision_iff]
    by_cases hr : r = 0
    · simp [hr]
    · by_cases hfits : Integer.Fits (l.tdiv r) <;> simp [hr, hfits]

theorem compute?_eq_some_iff {op : ArithOp} {l r k : Int64} :
    compute? op l r = some k ↔ op.Result l.toInt r.toInt k.toInt ∧ ¬ op.GivenUp l r := by
  have hresult : compute? op l r = some k ↔ integerResult? op l.toInt r.toInt = some k.toInt := by
    simp [compute?, Option.bind_eq_some_iff, Integer.checked?_eq_some_iff]
  rw [hresult, integerResult?_eq_some_iff, Integer.fits_tdiv_iff, ArithOp.GivenUp, not_and (a := op = _)]

theorem ofOption_eq_known_iff {result : Option Int64} {k : Int64} :
    ofOption result = .known k ↔ result = some k := by
  cases result <;> simp [ofOption]

theorem ofOption_eq_top_iff {result : Option Int64} :
    ofOption result = .top ↔ result = none := by
  cases result <;> simp [ofOption]

/-! ## Monotonicity -/

theorem fold_bottom_right (op : ArithOp) (a : Constant) : fold op a .bottom = .bottom := by
  cases a <;> rfl

/-- What is below the least element is the least element. -/
theorem eq_bottom_of_isBelow {a : Constant} (h : a.isBelow .bottom = true) : a = .bottom := by
  simpa using Flat.isBelow_cases.mp h

/-- Once an operand is unknown the result is, unless the other one is the least element. -/
theorem fold_top {op : ArithOp} {b : Constant} (hb : b ≠ .bottom) :
    fold op .top b = .top ∧ fold op b .top = .top := by
  cases b with
  | bottom => exact absurd rfl hb
  | known k => exact ⟨rfl, rfl⟩
  | top => exact ⟨rfl, rfl⟩

theorem fold_mono {op : ArithOp} {a a' b b' : Constant} (ha : a.isBelow a' = true)
    (hb : b.isBelow b' = true) : (fold op a b).isBelow (fold op a' b') = true := by
  -- an operand that is the least element makes the result the least element
  by_cases hnone : a = .bottom ∨ b = .bottom
  · rcases hnone with rfl | rfl
    · rfl
    · rw [fold_bottom_right]
      rfl
  · obtain ⟨hane, hbne⟩ := not_or.mp hnone
    have ha'ne : a' ≠ .bottom := by
      rintro rfl
      exact hane (eq_bottom_of_isBelow ha)
    have hb'ne : b' ≠ .bottom := by
      rintro rfl
      exact hbne (eq_bottom_of_isBelow hb)
    -- otherwise both operands stay as they are or the result becomes unknown
    rcases Flat.isBelow_cases.mp ha with rfl | rfl | rfl
    · exact absurd rfl hane
    · rw [(fold_top hb'ne).1]
      exact Flat.isBelow_cases.mpr (.inr (.inl rfl))
    · rcases Flat.isBelow_cases.mp hb with rfl | rfl | rfl
      · exact absurd rfl hbne
      · rw [(fold_top ha'ne).2]
        exact Flat.isBelow_cases.mpr (.inr (.inl rfl))
      · exact Flat.isBelow_cases.mpr (.inr (.inr rfl))

theorem negate_mono {a a' : Constant} (h : a.isBelow a' = true) :
    (negate a).isBelow (negate a') = true := by
  rcases Flat.isBelow_cases.mp h with rfl | rfl | rfl
  · rfl
  · exact Flat.isBelow_cases.mpr (.inr (.inl rfl))
  · exact Flat.isBelow_cases.mpr (.inr (.inr rfl))

/-! ## Folding and negation -/

/-- Folding computes what the integers say and keeps the order. -/
structure FoldsExactly (op : ArithOp) : Prop where
  known_iff : ∀ l r k : Int64, fold op (.known l) (.known r) = .known k ↔
    op.Result l.toInt r.toInt k.toInt ∧ ¬ op.GivenUp l r
  top_iff : ∀ l r : Int64, fold op (.known l) (.known r) = .top ↔
    (∀ k : Int64, ¬ op.Result l.toInt r.toInt k.toInt) ∨ op.GivenUp l r
  mono : ∀ a a' b b' : Constant, a.isBelow a' = true → b.isBelow b' = true →
    (fold op a b).isBelow (fold op a' b') = true

/-- A node that negates yields what the integers say and keeps the order. -/
structure NegatesExactly (scene : Scene Constant) (n : Node) (v : NodeId) : Prop where
  known_iff : ∀ k flow, operand scene v = .known k → ∀ k' : Int64,
    (transfer scene n flow).value = some (.known k') ↔ k'.toInt = -k.toInt
  top_iff : ∀ k flow, operand scene v = .known k →
    ((transfer scene n flow).value = some .top ↔ k = Int64.minValue)
  mono : ∀ (scene' : Scene Constant) flow flow',
    (operand scene v).isBelow (operand scene' v) = true →
      ∃ c c', (transfer scene n flow).value = some c ∧
        (transfer scene' n flow').value = some c' ∧ c.isBelow c' = true

theorem foldsExactly (op : ArithOp) : FoldsExactly op where
  known_iff l r k := by
    change ofOption (compute? op l r) = .known k ↔ _
    rw [ofOption_eq_known_iff, compute?_eq_some_iff]
  top_iff l r := by
    change ofOption (compute? op l r) = .top ↔ _
    rw [ofOption_eq_top_iff, Option.eq_none_iff_forall_ne_some]
    simp only [ne_eq, compute?_eq_some_iff, not_and_not_right]
    constructor
    · intro h
      by_cases hup : op.GivenUp l r
      · exact .inr hup
      · exact .inl fun k hk => hup (h k hk)
    · rintro (h | h) k hk
      · exact absurd hk (h k)
      · exact h
  mono _ _ _ _ := fold_mono

theorem value_of_minus {n : Node} {v : NodeId} (hn : n.kind = .minus v) (scene : Scene Constant)
    (flow : Flow ConstantStore) :
    (transfer scene n flow).value = some (negate (operand scene v)) := by
  simp [transfer, hn, Outcome.single]

/-- Only the least integer has no negative. -/
theorem checked?_neg_eq_none_iff {k : Int64} :
    Integer.checked? (-k.toInt) = none ↔ k = Int64.minValue := by
  rw [checked?_neg, negated?]
  split <;> simp_all

theorem negatesExactly {n : Node} {v : NodeId} (hn : n.kind = .minus v) (scene : Scene Constant) :
    NegatesExactly scene n v where
  known_iff k flow hk k' := by
    rw [value_of_minus hn, hk, Option.some.injEq]
    change ofOption (Integer.checked? (-k.toInt)) = .known k' ↔ _
    rw [ofOption_eq_known_iff, Integer.checked?_eq_some_iff]
  top_iff k flow hk := by
    rw [value_of_minus hn, hk, Option.some.injEq]
    change ofOption (Integer.checked? (-k.toInt)) = .top ↔ _
    rw [ofOption_eq_top_iff, checked?_neg_eq_none_iff]
  mono scene' flow flow' h :=
    ⟨_, _, value_of_minus hn scene flow, value_of_minus hn scene' flow', negate_mono h⟩

/-- Arithmetic on known operands is exact at the limits of 64 bits, with one remainder given up, a
negation is exact but for the least integer, and both keep the flat order. -/
theorem folding_exact_and_monotone (op : ArithOp) (scene : Scene Constant) (n : Node) (v : NodeId)
    (hn : n.kind = .minus v) : FoldsExactly op ∧ NegatesExactly scene n v :=
  ⟨foldsExactly op, negatesExactly hn scene⟩

/-- A literal and its negation, when the literal has been found to be the least integer. -/
def leastNegated : Scene Constant where
  graph := .ofSteps (.lambda [])
    [.addBlock .regular, .push ⟨0, 3⟩ (.literal (.integer Int64.minValue)),
      .push ⟨0, 3⟩ (.minus ⟨0, 0⟩), .addEdge ⟨0, 0⟩ ⟨0, 3⟩ .unconditional,
      .addEdge ⟨0, 3⟩ ⟨0, 1⟩ .unconditional]
  values := (∅ : Std.ExtTreeMap NodeId Constant).insert ⟨0, 0⟩ (.known Int64.minValue)
  replay := false

/-- The negation of the least integer is unknown, and so are its quotient by minus one, which does not
fit, and its remainder, which would. Negative operands are truncated toward zero. -/
theorem leastNegated_exact :
    operand leastNegated ⟨0, 0⟩ = .known Int64.minValue ∧
      (transfer leastNegated ⟨⟨0, 1⟩, ⟨0, 3⟩, .minus ⟨0, 0⟩, []⟩ (.single ∅)).value = some .top ∧
      fold .divide (.known Int64.minValue) (.known (-1)) = .top ∧
      fold .remainder (.known Int64.minValue) (.known (-1)) = .top ∧
      ArithOp.remainder.Result Int64.minValue.toInt (-1) 0 ∧
      fold .divide (.known (-7)) (.known 2) = .known (-3) ∧
      fold .remainder (.known (-7)) (.known 2) = .known (-1) ∧
      FoldsExactly .remainder ∧
      NegatesExactly leastNegated ⟨⟨0, 1⟩, ⟨0, 3⟩, .minus ⟨0, 0⟩, []⟩ ⟨0, 0⟩ := by
  have hremainder : ArithOp.remainder.Result Int64.minValue.toInt (-1) 0 :=
    ⟨-Int64.minValue.toInt, by decide, by decide, by decide, by decide⟩
  exact ⟨by decide +kernel, by decide +kernel, by decide, by decide, hremainder, by decide,
    by decide, folding_exact_and_monotone .remainder leastNegated
      ⟨⟨0, 1⟩, ⟨0, 3⟩, .minus ⟨0, 0⟩, []⟩ ⟨0, 0⟩ rfl⟩

end Constants

end FlowFixpoint
