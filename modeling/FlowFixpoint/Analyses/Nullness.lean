/-
# FlowFixpoint.Analyses.Nullness — which references are null.

A forward analysis. A test of a local against `null` splits the flow, each outcome knowing its
answer. A dereference proves its local not null from there on; along the edge of the exception that
a failed dereference raises, the store from before it is kept.
-/
import FlowFixpoint.Domain.Env
import FlowFixpoint.Flow.Analysis

namespace FlowFixpoint

/-- What is known about a reference. -/
inductive Nullness where
  | null
  | nonNull
  | maybeNull
deriving DecidableEq

namespace Nullness

/-- Agreement stays, disagreement says nothing. -/
def lub (a b : Nullness) : Nullness := if a = b then a else maybeNull

instance : Join Nullness := ⟨lub⟩

/-- The knowledge in words. -/
def name : Nullness → String
  | null => "null"
  | nonNull => "non-null"
  | maybeNull => "maybe-null"

instance : Describe Nullness where
  describe
    | null => "Null"
    | nonNull => "NonNull"
    | maybeNull => "MaybeNull"

/-- What is known about the locals. -/
abbrev NullnessStore := Env LocalVar Nullness

/-- The exception that dereferencing `null` raises. -/
def nullPointerException : ExceptionType := ⟨"NullPointerException"⟩

/-! ## Transfer -/

/-- What a store knows about a local; nothing if it does not bind the local. -/
def lookup (store : NullnessStore) (x : LocalVar) : Nullness :=
  (store.get? x).getD maybeNull

/-- The literal `null` is null, every other literal is not. -/
def ofLiteral : Literal → Nullness
  | .null => null
  | _ => nonNull

/-- A dereference of a node. -/
def dereference (scene : Scene Nullness) (receiver : NodeId) (flow : Flow NullnessStore) :
    Outcome Nullness NullnessStore :=
  let before := flow.regular
  let after := match scene.graph.localRead? receiver with
    | some x => before.set x nonNull
    | none => before
  (Outcome.single (some maybeNull) after).throwing nullPointerException before

/-- The local that a test against `null` is about; a `null` on the right is looked for first. -/
def tested? (g : Graph) (left right : NodeId) : Option LocalVar :=
  if g.isNullLiteral right then g.localRead? left
  else if g.isNullLiteral left then g.localRead? right
  else none

/-- An equality test, given what the local is when the test comes out true and when false. -/
def test (scene : Scene Nullness) (onTrue onFalse : Nullness) (left right : NodeId)
    (flow : Flow NullnessStore) : Outcome Nullness NullnessStore :=
  match tested? scene.graph left right with
  | none => .single (some nonNull) flow.regular
  | some x => .split (some nonNull) (flow.onTrue.set x onTrue) (flow.onFalse.set x onFalse)

/-- What a node makes of the arriving flow. -/
def transfer (scene : Scene Nullness) (n : Node) (flow : Flow NullnessStore) :
    Outcome Nullness NullnessStore :=
  match n.kind with
  | .literal l => .single (some (ofLiteral l)) flow.regular
  | .creation _ _ => .single (some nonNull) flow.regular
  | .localRead x => .keep (some ((lookup flow.onTrue x).lub (lookup flow.onFalse x))) flow
  | .assignment x v =>
    let value := (scene.value? v).getD maybeNull
    { Outcome.single (some value) (flow.regular.set x value) with
      finals := if scene.graph.isEffectivelyFinal x then [(x, value)] else [] }
  | .comparison .equal left right => test scene null nonNull left right flow
  | .comparison .notEqual left right => test scene nonNull null left right flow
  | .comparison _ _ _ => .single (some nonNull) flow.regular
  | .fieldRead receiver _ => dereference scene receiver flow
  | .call (some receiver) _ _ => dereference scene receiver flow
  | .call none _ _ => .single (some maybeNull) flow.regular
  | _ => .pass flow

/-- At the entry, nothing is known about the parameters. -/
def initial (code : CodeUnit) : NullnessStore :=
  .ofList (code.parameters.map fun x => (x, maybeNull))

/-- Nullness of references. -/
def analysis : Analysis Nullness NullnessStore where
  boundary := .forward initial
  transfer := transfer

end Nullness

end FlowFixpoint
