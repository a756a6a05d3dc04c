/-
# FlowFixpoint.Flow.Basic — the store, or the two stores, at a program point.

After a condition has been evaluated the point carries two stores, one for each outcome. A single
store stands for both outcomes; it is duplicated only when it meets a split one, so a single store
and the split of its two copies stay different.
-/
import FlowFixpoint.Domain.Join

namespace FlowFixpoint

/-- The store or stores at a program point. -/
inductive Flow (S : Type) where
  | single (store : S)
  | split (onTrue onFalse : S)
deriving DecidableEq

namespace Flow

variable {S : Type}

/-- Are there two stores? -/
def isSplit : Flow S → Bool
  | single _ => false
  | split _ _ => true

/-- The store for the outcome `true`. -/
def onTrue : Flow S → S
  | single s => s
  | split t _ => t

/-- The store for the outcome `false`. -/
def onFalse : Flow S → S
  | single s => s
  | split _ f => f

/-- One store for both outcomes: the single one, or the join of the two. -/
def regular [Join S] : Flow S → S
  | single s => s
  | split t f => join t f

/-- Combines two flows store by store; they stay single only if both are. -/
def combine (op : S → S → S) : Flow S → Flow S → Flow S
  | single a, single b => single (op a b)
  | a, b => split (op a.onTrue b.onTrue) (op a.onFalse b.onFalse)

instance [Join S] : Join (Flow S) := ⟨combine join⟩

instance [Describe S] : Describe (Flow S) where
  describe
    | single s => Text.applied "Regular" (describe s)
    | split t f =>
      Text.record "Conditional" ["then_store: " ++ describe t, "else_store: " ++ describe f]

instance [Store S] : Store (Flow S) where
  widen := combine widen

end Flow

end FlowFixpoint
