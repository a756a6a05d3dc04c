/-
# FlowFixpoint.Analyses.Intervals — ranges of integer locals.

A forward analysis on an order of unbounded height (but for the limits of 64-bit integers): without
widening a counting loop would be followed step by step. Widening moves every bound that still
grows to its limit. Every arithmetic operator is treated as a sum, whose bounds saturate.
-/
import FlowFixpoint.Domain.Env
import FlowFixpoint.Domain.Integer
import FlowFixpoint.Flow.Analysis

namespace FlowFixpoint

/-- The integers from `lo` to `hi`. -/
structure Interval where
  lo : Int64
  hi : Int64
deriving DecidableEq

namespace Interval

/-- A single integer. -/
def point (k : Int64) : Interval := ⟨k, k⟩

/-- The least interval around both. -/
def lub (a b : Interval) : Interval := ⟨min a.lo b.lo, max a.hi b.hi⟩

/-- Bound by bound, staying within the limits. -/
def add (a b : Interval) : Interval :=
  ⟨Integer.saturated (a.lo.toInt + b.lo.toInt), Integer.saturated (a.hi.toInt + b.hi.toInt)⟩

/-- The next interval, with every bound that has moved outward since `old` at its limit. -/
def widened (old next : Interval) : Interval :=
  ⟨if next.lo < old.lo then Int64.minValue else next.lo,
    if old.hi < next.hi then Int64.maxValue else next.hi⟩

instance : Join Interval := ⟨lub⟩

instance : Describe Interval where
  describe i := Text.record "Interval" ["lo: " ++ describe i.lo, "hi: " ++ describe i.hi]

end Interval

/-- The ranges of the locals. -/
@[ext]
structure IntervalStore where
  ranges : Env LocalVar Interval
deriving DecidableEq

namespace IntervalStore

/-- Joined local by local. -/
def lub (a b : IntervalStore) : IntervalStore := ⟨a.ranges.lub b.ranges⟩

/-- The next ranges, each widened against the old range of its local. -/
def widened (old next : IntervalStore) : IntervalStore :=
  ⟨⟨next.ranges.entries.map fun x now =>
    match old.ranges.get? x with
    | some before => before.widened now
    | none => now⟩⟩

instance : Join IntervalStore := ⟨lub⟩

instance : Describe IntervalStore := ⟨fun s => Text.applied "Intervals" (describe s.ranges)⟩

instance : Store IntervalStore where
  widen := widened

end IntervalStore

namespace Intervals

/-- What a node makes of the arriving flow. -/
def transfer (scene : Scene Interval) (n : Node) (flow : Flow IntervalStore) :
    Outcome Interval IntervalStore :=
  let store := flow.regular
  match n.kind with
  | .literal (.integer k) => .single (some (.point k)) store
  | .localRead x => .single (store.ranges.get? x) store
  | .arithmetic _ left right =>
    .single ((scene.value? left).bind fun l => (scene.value? right).map l.add) store
  | .assignment x v =>
    match scene.value? v with
    | some value => .single (some value) ⟨store.ranges.set x value⟩
    | none => .single none store
  | _ => .pass flow

/-- Ranges of integer locals. -/
def analysis : Analysis Interval IntervalStore where
  boundary := .forward fun _ => ⟨.empty⟩
  transfer := transfer

end Intervals

end FlowFixpoint
