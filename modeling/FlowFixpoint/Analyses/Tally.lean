/-
# FlowFixpoint.Analyses.Tally — a store that counts arrivals.

Its join adds, so it is not idempotent and breaks the contract of a join on purpose: the analyses
here show what the engine's checks report, and what a run does without them. Sums stop at the
greatest unsigned 32-bit integer. No node does anything, and nodes have no values.
-/
import FlowFixpoint.Domain.Flat
import FlowFixpoint.Flow.Analysis

namespace FlowFixpoint

/-- A number of arrivals. -/
@[ext]
structure Tally where
  count : Nat
deriving DecidableEq

namespace Tally

/-- The greatest count. -/
def limit : Nat := (1 <<< 32) - 1

/-- Both counts together, up to the limit. -/
def sum (a b : Tally) : Tally := ⟨min (a.count + b.count) limit⟩

instance : Join Tally := ⟨sum⟩

instance : Describe Tally := ⟨fun t => Text.applied "Summing" (describe t.count)⟩

instance : Store Tally where

/-- Starts with one more than the number of parameters. -/
def forward : Analysis (Flat Int64) Tally where
  boundary := .forward fun code => ⟨1 + code.parameters.length⟩
  transfer _ _ flow := .pass flow

/-- Starts with one more than the number of nodes that end the method, and with 100 at the
exceptional exit. -/
def backward : Analysis (Flat Int64) Tally where
  boundary := .backward (fun _ returns => ⟨1 + returns.length⟩) (fun _ => ⟨100⟩)
  transfer _ _ flow := .pass flow

end Tally

end FlowFixpoint
