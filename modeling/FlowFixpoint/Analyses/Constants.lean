/-
# FlowFixpoint.Analyses.Constants — constant propagation over integer locals.

A forward analysis with values in the flat order over 64-bit integers. A local that the store does
not bind reads as unknown. Arithmetic on two known values is known when the result fits; a test
`x == k` or `x != k` of a local against a known value refines the local on the outcome where the two
are equal.
-/
import FlowFixpoint.Domain.Env
import FlowFixpoint.Domain.Flat
import FlowFixpoint.Flow.Analysis

namespace FlowFixpoint.Constants

/-- What is known about an integer. -/
abbrev Constant := Flat Int64

/-- What is known about the locals. -/
abbrev ConstantStore := Env LocalVar Constant

/-! ## Arithmetic -/

/-- The result of an operator on the integers. Division truncates toward zero, a remainder has the
sign of the dividend. Neither is defined for a zero divisor or for a quotient that does not fit. -/
def integerResult? (op : ArithOp) (l r : Int) : Option Int :=
  match op with
  | .add => some (l + r)
  | .subtract => some (l - r)
  | .multiply => some (l * r)
  | .divide => if r = 0 then none else some (l.tdiv r)
  | .remainder =>
    if r = 0 ∨ ¬ Integer.Fits (l.tdiv r) then none else some (l.tmod r)

/-- The result of an operator on 64-bit integers, if it is defined and fits. -/
def compute? (op : ArithOp) (l r : Int64) : Option Int64 :=
  (integerResult? op l.toInt r.toInt).bind Integer.checked?

/-- The value a computation leaves: unknown when it has no result. -/
def ofOption : Option Int64 → Constant
  | some k => .known k
  | none => .top

/-- Arithmetic on what is known. -/
def fold (op : ArithOp) : Constant → Constant → Constant
  | .bottom, _ => .bottom
  | _, .bottom => .bottom
  | .known l, .known r => ofOption (compute? op l r)
  | _, _ => .top

/-- Negation of what is known. -/
def negate : Constant → Constant
  | .known k => ofOption (Integer.checked? (-k.toInt))
  | other => other

/-! ## Transfer -/

/-- What is known about an operand; unknown without a recorded value. -/
def operand (scene : Scene Constant) (n : NodeId) : Constant :=
  (scene.value? n).getD .top

/-- What a store knows about a local; unknown if it does not bind the local. -/
def lookup (store : ConstantStore) (x : LocalVar) : Constant :=
  (store.get? x).getD .top

/-- The value that an equality test gives to a local: of a read operand against a known one, the
left read first. -/
def refinement? (scene : Scene Constant) (left right : NodeId) : Option (LocalVar × Constant) :=
  match scene.graph.localRead? left, (operand scene right).value? with
  | some x, some k => some (x, .known k)
  | _, _ =>
    match scene.graph.localRead? right, (operand scene left).value? with
    | some x, some k => some (x, .known k)
    | _, _ => none

/-- A store after a local has turned out equal to a value. -/
def refine (store : ConstantStore) (x : LocalVar) (k : Constant) : ConstantStore :=
  store.set x ((lookup store x).meet k)

/-- An equality test, given the outcome on which the two sides are equal. -/
def equality (scene : Scene Constant) (equalOn : Bool) (left right : NodeId)
    (flow : Flow ConstantStore) : Outcome Constant ConstantStore :=
  match refinement? scene left right with
  | none => .pass flow
  | some (x, k) =>
    if equalOn then .split none (refine flow.onTrue x k) flow.onFalse
    else .split none flow.onTrue (refine flow.onFalse x k)

/-- What a node makes of the arriving flow. -/
def transfer (scene : Scene Constant) (n : Node) (flow : Flow ConstantStore) :
    Outcome Constant ConstantStore :=
  match n.kind with
  | .literal (.integer k) => .single (some (.known k)) flow.regular
  | .localRead x => .keep (some ((lookup flow.onTrue x).lub (lookup flow.onFalse x))) flow
  | .assignment x v =>
    let value := operand scene v
    { Outcome.single (some value) (flow.regular.set x value) with
      finals := if scene.graph.isEffectivelyFinal x then [(x, value)] else [] }
  | .arithmetic op left right =>
    .single (some (fold op (operand scene left) (operand scene right))) flow.regular
  | .minus v => .single (some (negate (operand scene v))) flow.regular
  | .comparison .equal left right => equality scene true left right flow
  | .comparison .notEqual left right => equality scene false left right flow
  | _ => .pass flow

/-- At the entry, nothing is known about the parameters. -/
def initial (code : CodeUnit) : ConstantStore :=
  .ofList (code.parameters.map fun x => (x, .top))

/-- Constant propagation. -/
def analysis : Analysis Constant ConstantStore where
  boundary := .forward initial
  transfer := transfer

end FlowFixpoint.Constants
