/-
# FlowFixpoint.Domain.Integer — signed 64-bit integers computed through the integers.

Results are computed exactly and then brought back: `checked?` refuses what does not fit,
`saturated` moves it to the nearer end. `ofDecimal?` reads an optional sign and decimal digits.
-/
import FlowFixpoint.Text.Quoted

namespace FlowFixpoint.Integer

/-- An integer fits when it lies between the least and the greatest 64-bit value. -/
def Fits (k : Int) : Prop := Int64.minValue.toInt ≤ k ∧ k ≤ Int64.maxValue.toInt

instance (k : Int) : Decidable (Fits k) := inferInstanceAs (Decidable (_ ∧ _))

/-- The 64-bit integer equal to `k`, if there is one. -/
def checked? (k : Int) : Option Int64 :=
  if Fits k then some (Int64.ofInt k) else none

/-- The 64-bit integer nearest to `k`. -/
def saturated (k : Int) : Int64 :=
  if k < Int64.minValue.toInt then Int64.minValue
  else if Int64.maxValue.toInt < k then Int64.maxValue
  else Int64.ofInt k

/-- The value of a run of decimal digits; none for an empty run or another character. -/
def digits? (cs : List Char) : Option Nat :=
  if cs ≠ [] ∧ cs.all Char.isDigit then
    some (cs.foldl (fun n c => 10 * n + (c.toNat - '0'.toNat)) 0)
  else none

/-- Reads an optional sign and at least one decimal digit; none if that is not the whole text or
the value does not fit. -/
def ofDecimal? (text : String) : Option Int64 :=
  match text.toList with
  | '-' :: cs => (digits? cs).bind fun n => checked? (-(n : Int))
  | '+' :: cs => (digits? cs).bind fun n => checked? n
  | cs => (digits? cs).bind fun n => checked? n

end FlowFixpoint.Integer

namespace FlowFixpoint

instance : Describe Int64 := ⟨fun k => toString k.toInt⟩

end FlowFixpoint
