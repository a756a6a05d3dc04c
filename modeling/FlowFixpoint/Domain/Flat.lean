/-
# FlowFixpoint.Domain.Flat — the flat order over a type.

`bottom` says nothing is known to reach, `known a` says exactly `a`, and `top` says values conflict.
Any two different known values join to `top` and meet in `bottom`.
-/
import FlowFixpoint.Domain.Integer
import FlowFixpoint.Domain.Join

namespace FlowFixpoint

/-- An element of the flat order over `α`. -/
inductive Flat (α : Type) where
  | bottom
  | known (value : α)
  | top
deriving DecidableEq

namespace Flat

variable {α : Type}

/-- The least element above both. -/
def lub [DecidableEq α] : Flat α → Flat α → Flat α
  | bottom, b => b
  | a, bottom => a
  | known a, known b => if a = b then known a else top
  | _, _ => top

/-- The greatest element below both. -/
def meet [DecidableEq α] : Flat α → Flat α → Flat α
  | top, b => b
  | a, top => a
  | known a, known b => if a = b then known a else bottom
  | _, _ => bottom

/-- The order itself: `bottom` below everything, everything below `top`. -/
def isBelow [DecidableEq α] : Flat α → Flat α → Bool
  | bottom, _ => true
  | _, top => true
  | known a, known b => a = b
  | _, _ => false

/-- The known value, if there is one. -/
def value? : Flat α → Option α
  | known a => some a
  | _ => none

/-- Is this the greatest element? -/
def isTop : Flat α → Bool
  | top => true
  | _ => false

/-- Is this the least element? -/
def isBottom : Flat α → Bool
  | bottom => true
  | _ => false

/-- The text of an element, given the text of a value. -/
def text (render : α → String) : Flat α → String
  | bottom => "⊥"
  | known a => render a
  | top => "⊤"

instance [DecidableEq α] : Join (Flat α) := ⟨lub⟩

instance [Describe α] : Describe (Flat α) where
  describe
    | bottom => "Bottom"
    | known a => Text.applied "Value" (describe a)
    | top => "Top"

end Flat

end FlowFixpoint
