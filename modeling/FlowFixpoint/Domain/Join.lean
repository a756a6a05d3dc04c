/-
# FlowFixpoint.Domain.Join — what the engine asks of values and stores.

The engine uses a store only through its join, its equality and, at widening points, its widening.
No law is built into these classes: a store whose join breaks the laws is still run, and the
contract checks of the engine are there to report it.

Equality is another matter. It is given by `DecidableEq` and so decides whether two elements are the
same; in particular a copy is equal to its source, which is asked of every value and store.
-/
import FlowFixpoint.Text.Quoted

namespace FlowFixpoint

/-- Elements that can be joined. -/
class Join (α : Type) where
  join : α → α → α

export Join (join)

/-- What flows along the edges of a graph. -/
class Store (S : Type) extends Join S, Describe S where
  /-- The bound used at widening points: from the store recorded there and the joined store about
  to replace it. Without need for more it is the join. -/
  widen : S → S → S := join

export Store (widen)

/-- Is `upper` at or above `lower` in the order of the join? -/
def isUpperBound {α : Type} [Join α] [DecidableEq α] (upper lower : α) : Bool :=
  join upper lower = upper

end FlowFixpoint
