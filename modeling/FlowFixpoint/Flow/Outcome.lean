/-
# FlowFixpoint.Flow.Outcome — what passing one node yields.

An outcome holds the value of the node, if it has one, the flow behind it, and the stores that go
along the edges of particular exceptions, each exception once and in the order first named. It also
lists what the node says about effectively final locals.
-/
import FlowFixpoint.Flow.Basic
import FlowFixpoint.Ident

namespace FlowFixpoint

/-- What passing a node yields. -/
structure Outcome (V S : Type) where
  value : Option V
  flow : Flow S
  thrown : List (ExceptionType × S) := []
  /-- Values of effectively final locals, in the order they were recorded. -/
  finals : List (LocalVar × V) := []
deriving DecidableEq

namespace Outcome

variable {V S : Type}

/-- A value and one store behind the node. -/
def single (value : Option V) (store : S) : Outcome V S :=
  { value, flow := .single store }

/-- A value and a store for each outcome of a condition. -/
def split (value : Option V) (onTrue onFalse : S) : Outcome V S :=
  { value, flow := .split onTrue onFalse }

/-- A value, and the arriving flow as it is. -/
def keep (value : Option V) (flow : Flow S) : Outcome V S :=
  { value, flow }

/-- No value and the arriving flow as one store: what a node does that nobody cares about. -/
def pass [Join S] (flow : Flow S) : Outcome V S :=
  single none flow.regular

/-- Puts a store under an exception: in its old place if it is there, else at the end. -/
def putThrown (e : ExceptionType) (s : S) :
    List (ExceptionType × S) → List (ExceptionType × S)
  | [] => [(e, s)]
  | (e', s') :: rest => if e' = e then (e, s) :: rest else (e', s') :: putThrown e s rest

/-- Sets the store that goes along the edge of an exception. -/
def throwing (o : Outcome V S) (e : ExceptionType) (s : S) : Outcome V S :=
  { o with thrown := putThrown e s o.thrown }

/-- The store that goes along the edge of an exception: its own, else the one behind the node. -/
def thrownStore [Join S] (o : Outcome V S) (e : ExceptionType) : S :=
  ((o.thrown.find? fun entry => entry.1 = e).map Prod.snd).getD o.flow.regular

end Outcome

end FlowFixpoint
