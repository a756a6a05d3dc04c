/-
# FlowFixpoint.Proofs.MachineArithmetic — the checked arithmetic of the machine.

The machine computes modulo 2^64 and refuses a result that is not the exact one. Constant propagation
goes the other way round: it computes exactly and refuses what does not fit. Both give the same
results, on every operator and on all operands. The quotient of the least integer by minus one is
the only one that does not fit, and the machine refuses the remainder along with the quotient.
-/
import FlowFixpoint.Proofs.ConstantSoundness

namespace FlowFixpoint

/-! ## The machine -/

namespace ArithOp

/-- Does the machine refuse to compute? It does on overflow and for a zero divisor. -/
def refuses (op : ArithOp) (l r : Int64) : Bool :=
  match op with
  | .add => BitVec.saddOverflow l.toBitVec r.toBitVec
  | .subtract => BitVec.ssubOverflow l.toBitVec r.toBitVec
  | .multiply => BitVec.smulOverflow l.toBitVec r.toBitVec
  | .divide | .remainder => r = 0 || l = Int64.minValue && r = -1

/-- What the machine computes, modulo 2^64. -/
def wrapped (op : ArithOp) (l r : Int64) : Int64 :=
  match op with
  | .add => l + r
  | .subtract => l - r
  | .multiply => l * r
  | .divide => l / r
  | .remainder => l % r

/-- Checked arithmetic: the result of the machine, unless it refuses. -/
def checked? (op : ArithOp) (l r : Int64) : Option Int64 :=
  if op.refuses l r then none else some (op.wrapped l r)

end ArithOp

/-- Checked negation; only the least integer has no negative. -/
def negated? (k : Int64) : Option Int64 :=
  if k = Int64.minValue then none else some (-k)

/-! ## What fits -/

theorem Integer.fits_iff {i : Int} : Integer.Fits i ↔ -2 ^ 63 ≤ i ∧ i < 2 ^ 63 := by
  have hmin : Int64.minValue.toInt = -2 ^ 63 := by decide
  have hmax : Int64.maxValue.toInt = 2 ^ 63 - 1 := by decide
  unfold Integer.Fits
  omega

/-- What the machine has computed modulo 2^64 is the exact result if that fits. -/
theorem Integer.checked?_of_fits {i : Int} (h : Integer.Fits i) {k : Int64}
    (hk : k.toInt = i.bmod (2 ^ 64)) : Integer.checked? i = some k := by
  obtain ⟨hlow, hhigh⟩ := Integer.fits_iff.mp h
  have hexact : i.bmod (2 ^ 64) = i := Int.bmod_eq_of_le (by omega) (by omega)
  rw [Integer.checked?, if_pos h, Option.some.injEq, ← Int64.toInt_inj, hk, hexact]
  exact Int64.toInt_ofInt_of_le hlow (by omega)

/-- Exact computation agrees with the machine, if the machine refuses what does not fit. -/
theorem Integer.checked?_eq {i : Int} {k : Int64} {refused : Bool}
    (hk : k.toInt = i.bmod (2 ^ 64)) (hrefused : refused = true ↔ ¬ Integer.Fits i) :
    Integer.checked? i = if refused then none else some k := by
  cases refused with
  | true => exact if_neg (hrefused.mp rfl)
  | false => exact Integer.checked?_of_fits (by simpa using hrefused) hk

/-- The machine's test for overflow asks whether the exact result fits. -/
theorem Integer.overflow_iff {i : Int} :
    (decide (i ≥ 2 ^ (64 - 1)) || decide (i < -2 ^ (64 - 1))) = true ↔ ¬ Integer.Fits i := by
  rw [Bool.or_eq_true, decide_eq_true_iff, decide_eq_true_iff, Integer.fits_iff]
  omega

theorem Integer.fits_toInt (k : Int64) : Integer.Fits k.toInt :=
  Integer.fits_iff.mpr ⟨Int64.le_toInt k, Int64.toInt_lt k⟩

theorem Integer.checked?_toInt (k : Int64) : Integer.checked? k.toInt = some k := by
  rw [Integer.checked?, if_pos (Integer.fits_toInt k), Int64.ofInt_toInt]

/-- Only the least integer divided by minus one has a quotient that does not fit. -/
theorem Integer.fits_tdiv_iff {l r : Int64} :
    Integer.Fits (l.toInt.tdiv r.toInt) ↔ ¬ (l = Int64.minValue ∧ r = -1) := by
  constructor
  · rintro hfits ⟨rfl, rfl⟩
    revert hfits
    decide
  · intro hne
    -- otherwise the machine's quotient is the exact one
    have hexact : (l / r).toInt = l.toInt.tdiv r.toInt := by
      by_cases hl : l = Int64.minValue
      · exact Int64.toInt_div_of_ne_right l r fun hr => hne ⟨hl, hr⟩
      · exact Int64.toInt_div_of_ne_left l r hl
    rw [← hexact]
    exact Integer.fits_toInt (l / r)

/-! ## Agreement -/

namespace Constants

/-- What constant propagation computes is what checked arithmetic gives. -/
theorem compute?_eq_checked? (op : ArithOp) (l r : Int64) : compute? op l r = op.checked? l r := by
  have hzero : r.toInt = 0 ↔ r = 0 := by
    rw [← Int64.toInt_inj]
    rfl
  cases op with
  | add => exact Integer.checked?_eq (Int64.toInt_add l r) Integer.overflow_iff
  | subtract => exact Integer.checked?_eq (Int64.toInt_sub l r) Integer.overflow_iff
  | multiply => exact Integer.checked?_eq (Int64.toInt_mul l r) Integer.overflow_iff
  | divide =>
    by_cases hr : r = 0
    · simp [compute?, integerResult?, ArithOp.checked?, ArithOp.refuses, hr]
    · simp only [compute?, integerResult?, hzero, if_neg hr, Option.bind_some]
      refine Integer.checked?_eq (Int64.toInt_div l r) ?_
      rw [Integer.fits_tdiv_iff]
      simp [ArithOp.refuses, hr]
  | remainder =>
    simp only [compute?, integerResult?, hzero, Integer.fits_tdiv_iff, not_not,
      ArithOp.checked?, ArithOp.refuses, Bool.or_eq_true, Bool.and_eq_true, decide_eq_true_iff]
    split
    · rfl
    · rw [Option.bind_some, ← Int64.toInt_mod, Integer.checked?_toInt]
      rfl

/-- What constant propagation negates is what checked negation gives. -/
theorem checked?_neg (k : Int64) : Integer.checked? (-k.toInt) = negated? k := by
  have hrefused : decide (k = Int64.minValue) = true ↔ ¬ Integer.Fits (-k.toInt) := by
    have hlow := Int64.le_toInt k
    have hhigh := Int64.toInt_lt k
    rw [decide_eq_true_iff, ← Int64.toInt_inj, Int64.toInt_minValue, Integer.fits_iff]
    omega
  rw [Integer.checked?_eq (Int64.toInt_neg k) hrefused, negated?]
  simp only [decide_eq_true_iff]

end Constants

end FlowFixpoint
