/-
# FlowFixpoint.Fixpoint.Worklist — pending blocks, taken by their rank in a fixed order.

The rank of a block is its position in the order, which lists no block twice, so that it is the first
and the last position as well; blocks outside the order come after all others, by identifier. The
queue holds one ticket for each pending block, and a second set answers whether
a block is pending without asking for its rank.
-/
import FlowFixpoint.Ident

namespace FlowFixpoint

open Std (TransCmp TransOrd LawfulEqOrd)

/-- A pending block with its rank. Tickets are ordered by rank, then by block. -/
structure Ticket where
  rank : Nat
  block : BlockId
deriving DecidableEq

namespace Ticket

instance : Ord Ticket := ⟨compareLex (compareOn rank) (compareOn block)⟩

instance : TransOrd Ticket :=
  inferInstanceAs (TransCmp (compareLex (compareOn rank) (compareOn block)))

instance : LawfulEqOrd Ticket where
  eq_of_compare {a b} h := by
    have h' : (compare a.rank b.rank).then (compare a.block b.block) = .eq := h
    obtain ⟨hr, hb⟩ := Ordering.then_eq_eq.mp h'
    cases a
    cases b
    simp_all

end Ticket

/-- The pending blocks of a run. -/
structure Worklist where
  order : List BlockId
  queue : Std.ExtTreeSet Ticket := ∅
  queued : Std.ExtTreeSet BlockId := ∅

namespace Worklist

/-- Nothing is pending. -/
def ofOrder (order : List BlockId) : Worklist := { order }

/-- The only position in the order; outside it, the length of the order. -/
def rank (w : Worklist) (b : BlockId) : Nat := w.order.idxOf b

/-- Makes a block pending; one that is pending already stays as it is. -/
def push (w : Worklist) (b : BlockId) : Worklist :=
  if w.queued.contains b then w
  else { w with
    queue := w.queue.insert ⟨w.rank b, b⟩
    queued := w.queued.insert b }

/-- Takes the pending block of least rank: the one whose ticket stands first in the ordered queue. -/
def pop? (w : Worklist) : Option (BlockId × Worklist) :=
  w.queue.toList.head?.map fun ticket =>
    (ticket.block,
      { w with
        queue := w.queue.erase ticket
        queued := w.queued.erase ticket.block })

end Worklist

end FlowFixpoint
