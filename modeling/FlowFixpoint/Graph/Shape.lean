/-
# FlowFixpoint.Graph.Shape — the form that each kind of block must have.

The form is a matter of how many nodes a block holds and which labels its outgoing edges carry.
The checks of a kind are made in a fixed order and the first that fails is reported.
-/
import FlowFixpoint.Graph.Basic

namespace FlowFixpoint

/-- How a block fails the form of its kind. -/
inductive ShapeFault where
  | specialHoldsNodes
  | entrySuccessors
  | exitSuccessors
  | regularSuccessors
  | conditionalNodes
  | conditionalSuccessors
  | exceptionalNodes
  | exceptionalSuccessors
  | repeatedException
deriving DecidableEq

/-- The fault in words. -/
def ShapeFault.reason : ShapeFault → String
  | specialHoldsNodes => "special blocks cannot hold nodes"
  | entrySuccessors => "entry block needs at most one unconditional successor"
  | exitSuccessors => "exit blocks cannot have successors"
  | regularSuccessors => "regular block needs at most one unconditional successor"
  | conditionalNodes => "conditional block holds at most one node"
  | conditionalSuccessors => "conditional block needs exactly one then and one else successor"
  | exceptionalNodes => "exceptional block holds exactly one node"
  | exceptionalSuccessors =>
    "exceptional block takes exception edges plus at most one fall-through"
  | repeatedException => "duplicate exception edge"

namespace Shape

/-- The exception an edge is taken on. -/
def exception? : EdgeLabel → Option ExceptionType
  | .exception type => some type
  | _ => none

/-- At most one label, and that unconditional. -/
def isStraight (labels : List EdgeLabel) : Bool :=
  labels.length ≤ 1 && labels.all fun l => l = .unconditional

/-- One label for each outcome of a condition and no other. -/
def isBranching (labels : List EdgeLabel) : Bool :=
  labels.length = 2 && labels.contains .onTrue && labels.contains .onFalse

/-- Exception labels, and at most one unconditional label among them. -/
def isThrowing (labels : List EdgeLabel) : Bool :=
  (labels.filter fun l => l = .unconditional).length ≤ 1 &&
    labels.all fun l => l = .unconditional || (exception? l).isSome

/-- Is some exception named twice? -/
def repeatsException (labels : List EdgeLabel) : Bool :=
  !decide (labels.filterMap exception?).Nodup

/-- The first way in which a block with so many nodes and these outgoing labels fails its kind. -/
def fault? (kind : BlockKind) (nodes : Nat) (labels : List EdgeLabel) : Option ShapeFault :=
  match kind with
  | .special special =>
    if nodes ≠ 0 then some .specialHoldsNodes
    else match special with
      | .entry => if isStraight labels then none else some .entrySuccessors
      | .exit | .exceptionalExit => if labels.isEmpty then none else some .exitSuccessors
  | .regular => if isStraight labels then none else some .regularSuccessors
  | .conditional =>
    if 1 < nodes then some .conditionalNodes
    else if isBranching labels then none else some .conditionalSuccessors
  | .exceptional =>
    if nodes ≠ 1 then some .exceptionalNodes
    else if !isThrowing labels then some .exceptionalSuccessors
    else if repeatsException labels then some .repeatedException
    else none

end Shape

end FlowFixpoint
