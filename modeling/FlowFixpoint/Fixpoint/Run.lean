/-
# FlowFixpoint.Fixpoint.Run — from the start blocks to a fixpoint.

A run seeds the start blocks and then visits pending blocks, least rank first, until none is
pending or the visits allowed are used up. The visit that would exceed them is counted, not made.
-/
import FlowFixpoint.Fixpoint.Pass
import FlowFixpoint.Graph.Order

namespace FlowFixpoint

variable {V S : Type}

namespace Setup

variable [Store S] [DecidableEq S] [DecidableEq V]

/-- Visits pending blocks, at most `left` of them. -/
def run (s : Setup V S) (left : Nat) (p : Pass V S) : Except (Failure V S) (Pass V S) :=
  match p.pending.pop? with
  | none => .ok p
  | some (b, pending) =>
    let p := { p with pending, visits := p.visits + 1 }
    match left with
    | 0 =>
      .error { fault := .malformed (.nonTermination s.settings.maxVisits), pass := p }
    | left + 1 =>
      match s.visit b p with
      | .error failure => .error failure
      | .ok p' => s.run left p'

end Setup

namespace Analysis

/-- The fixed part of a run on a graph, and its state before the first visit. -/
def prepare (a : Analysis V S) (settings : Settings) (g : Graph) :
    Except Stray (Setup V S × Pass V S) := do
  let seeds ← a.seeds g
  let order ← g.blockOrder a.direction
  let wideningPoints ← g.wideningPoints a.direction
  let start : Pass V S := { pending := Worklist.ofOrder order }
  return ({ graph := g, analysis := a, settings, wideningPoints },
    seeds.foldl (fun p (b, store) => p.seed b store) start)

/-- Runs an analysis on a graph: the state at the fixpoint, or why there is none. -/
def solve [Store S] [DecidableEq S] [DecidableEq V] (a : Analysis V S) (settings : Settings)
    (g : Graph) : Except (Failure V S) (Pass V S) :=
  match a.prepare settings g with
  | .error id => .error { fault := .stray id, pass := { pending := Worklist.ofOrder [] } }
  | .ok (setup, start) => setup.run settings.maxVisits start

end Analysis

end FlowFixpoint
