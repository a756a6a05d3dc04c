/-
# FlowFixpoint.Json.Magnitude — plain naturals, and numbers too large for a double.

A number that is not a plain natural below 2^64 is read as a double: its leading digits give a
significand below 2^64, the digits that no longer fit and the exponent give a power of ten, and both
are rounded to 53 significant bits before they are multiplied. A product that rounds past the
largest double is out of range.
-/
import FlowFixpoint.Json.Scan

namespace FlowFixpoint.Json

/-- One more than the greatest unsigned 64-bit integer. -/
def wordLimit : Nat := 1 <<< 64

/-! ## Plain naturals -/

/-- The value of decimal digits. -/
def decimal (ds : List Char) : Nat :=
  ds.foldl (fun n c => 10 * n + digitValue c) 0

/-- A significand and a power of ten, while digits are taken in. -/
structure Scaled where
  significand : Nat
  power : Int
  /-- Have digits been left out? -/
  full : Bool := false

/-- Takes in a digit before the point: one that does not fit raises the power, as all after it. -/
def Scaled.takeWhole (s : Scaled) (c : Char) : Scaled :=
  let next := 10 * s.significand + digitValue c
  if s.full || wordLimit ≤ next then { s with power := s.power + 1, full := true }
  else { s with significand := next }

/-- Takes in a digit after the point: one that does not fit is left out, as all after it. -/
def Scaled.takeFraction (s : Scaled) (c : Char) : Scaled :=
  let next := 10 * s.significand + digitValue c
  if s.full || wordLimit ≤ next then { s with full := true }
  else { s with significand := next, power := s.power - 1 }

/-- The significand and power of ten of a number, its sign left aside. -/
def Numeral.scaled (n : Numeral) : Scaled :=
  let whole := n.whole.foldl Scaled.takeWhole { significand := 0, power := 0 }
  let all := n.fraction.foldl Scaled.takeFraction { whole with full := false }
  match n.exponent with
  | none => all
  | some (false, ds) => { all with power := all.power + decimal ds }
  | some (true, ds) => { all with power := all.power - decimal ds }

/-- The nearest number with 53 significant bits, a tie going to the even one. -/
def roundToDouble (n : Nat) : Nat :=
  if n < 1 <<< 53 then n
  else
    let unit := 1 <<< (n.log2 - 52)
    let quotient := n / unit
    let twice := 2 * (n % unit)
    if twice < unit ∨ twice = unit ∧ quotient % 2 = 0 then quotient * unit
    else (quotient + 1) * unit

/-- The least number that rounds past the largest double. -/
def doubleLimit : Nat := (1 <<< 1024) - (1 <<< 970)

/-- Is the number too large for a double? -/
def Numeral.outOfRange (n : Numeral) : Bool :=
  let s := n.scaled
  if s.significand = 0 ∨ s.power < 0 then false
  else if 308 < s.power then true
  else decide (doubleLimit ≤ roundToDouble s.significand * roundToDouble (Nat.pow 10 s.power.toNat))

end FlowFixpoint.Json
