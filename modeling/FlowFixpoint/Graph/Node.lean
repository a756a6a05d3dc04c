/-
# FlowFixpoint.Graph.Node — expressions and statements in three-address form.

A node names its operands by identifier; each operand is a node of its own. The kind of a node says
what it does, its block where it stands, and its trees which source trees it answers for, the
primary one first.
-/
import FlowFixpoint.Ident

namespace FlowFixpoint

/-- A literal constant. -/
inductive Literal where
  | integer (value : Int64)
  | boolean (value : Bool)
  | text (value : String)
  | null
deriving DecidableEq

/-- Arithmetic on two operands. -/
inductive ArithOp where
  | add
  | subtract
  | multiply
  | divide
  | remainder
deriving DecidableEq

/-- A test of two operands. -/
inductive CompareOp where
  | equal
  | notEqual
  | less
  | lessOrEqual
  | greater
  | greaterOrEqual
deriving DecidableEq

/-- The test that holds exactly when this one fails. -/
def CompareOp.negate : CompareOp → CompareOp
  | equal => notEqual
  | notEqual => equal
  | less => greaterOrEqual
  | lessOrEqual => greater
  | greater => lessOrEqual
  | greaterOrEqual => less

/-- A connective that evaluates its right operand only if needed. -/
inductive LogicOp where
  | and
  | or
deriving DecidableEq

/-- What a node does. -/
inductive NodeKind where
  /-- A literal constant. -/
  | literal (value : Literal)
  /-- The read of a local. -/
  | localRead (var : LocalVar)
  /-- The declaration of a local, without a value. -/
  | declaration (var : LocalVar)
  /-- The write of a local. -/
  | assignment (target : LocalVar) (value : NodeId)
  /-- Arithmetic on two operands. -/
  | arithmetic (op : ArithOp) (left right : NodeId)
  /-- A test of two operands. -/
  | comparison (op : CompareOp) (left right : NodeId)
  /-- A logical connective. -/
  | logical (op : LogicOp) (left right : NodeId)
  /-- Boolean negation. -/
  | not (operand : NodeId)
  /-- Arithmetic negation. -/
  | minus (operand : NodeId)
  /-- The read of a field. -/
  | fieldRead (receiver : NodeId) (field : String)
  /-- A method call; a static call has no receiver. -/
  | call (receiver : Option NodeId) (method : String) (arguments : List NodeId)
  /-- The creation of an object. -/
  | creation (className : String) (arguments : List NodeId)
  /-- The end of the method, with the result if it has one. -/
  | ret (result : Option NodeId)
  /-- The throw of an exception. -/
  | throwing (exception : NodeId)
  /-- A label without effect of its own. -/
  | marker (label : String)
deriving DecidableEq

namespace NodeKind

/-- Operands in the order of their evaluation. -/
def operands : NodeKind → List NodeId
  | literal _ | localRead _ | declaration _ | marker _ => []
  | assignment _ value => [value]
  | arithmetic _ left right | comparison _ left right | logical _ left right => [left, right]
  | not operand | minus operand => [operand]
  | fieldRead receiver _ => [receiver]
  | call receiver _ arguments => receiver.toList ++ arguments
  | creation _ arguments => arguments
  | ret result => result.toList
  | throwing exception => [exception]

/-- The name of the kind. -/
def variantName : NodeKind → String
  | literal _ => "literal"
  | localRead _ => "local-variable"
  | declaration _ => "variable-declaration"
  | assignment _ _ => "assignment"
  | arithmetic _ _ _ => "binary"
  | comparison _ _ _ => "comparison"
  | logical _ _ _ => "logical"
  | not _ => "not"
  | minus _ => "negate"
  | fieldRead _ _ => "field-access"
  | call _ _ _ => "method-invocation"
  | creation _ _ => "object-creation"
  | ret _ => "return"
  | throwing _ => "throw"
  | marker _ => "marker"

/-- Does the node end the method? -/
def isReturn : NodeKind → Bool
  | ret _ => true
  | _ => false

end NodeKind

/-- A node, owned by one block. -/
structure Node where
  id : NodeId
  block : BlockId
  kind : NodeKind
  trees : List TreeId
deriving DecidableEq

/-- The primary source tree. -/
def Node.tree? (n : Node) : Option TreeId := n.trees.head?

end FlowFixpoint
