/-
# FlowFixpoint.Graph.DepthFirst — depth-first walks and the order in which they finish.

A walk enters a vertex unless it has been seen, explores its successors in order, and then finishes
it. `finished` collects vertices latest first, so that for a walk from the roots it is a reverse
postorder. Nested entries are always into vertices not seen before; a depth of as many levels as
there are vertices therefore never cuts a walk short.
-/

namespace FlowFixpoint

/-- How far a depth-first walk has come. -/
structure Trail (α : Type) where
  /-- Every vertex entered so far. -/
  seen : List α := []
  /-- Every vertex left again, latest first. -/
  finished : List α := []

namespace Trail

variable {α : Type} [DecidableEq α]

/-- Explores from a vertex, at most `depth` levels down. -/
def explore (next : α → List α) : (depth : Nat) → Trail α → α → Trail α
  | 0, t, _ => t
  | depth + 1, t, v =>
    if v ∈ t.seen then t
    else
      let t' := (next v).foldl (explore next depth) { t with seen := v :: t.seen }
      { t' with finished := v :: t'.finished }

/-- Explores from several roots in order. -/
def ofRoots (next : α → List α) (depth : Nat) (roots : List α) : Trail α :=
  roots.foldl (explore next depth) {}

end Trail

end FlowFixpoint
