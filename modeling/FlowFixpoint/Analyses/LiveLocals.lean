/-
# FlowFixpoint.Analyses.LiveLocals — which locals may still be read.

A backward analysis. The store at a point is the set of locals whose current value may still be
read. A node makes live what its direct operands read, a read also its own local; an assignment
first ends the life of its target. At both exits nothing is live, and nodes have no values.
-/
import FlowFixpoint.Flow.Analysis

namespace FlowFixpoint

/-- A set of live locals. -/
@[ext]
structure LiveSet where
  locals : Std.ExtTreeSet LocalVar
deriving DecidableEq

namespace LiveSet

/-- No local is live. -/
def empty : LiveSet := ⟨∅⟩

/-- Is the local live? -/
def contains (s : LiveSet) (x : LocalVar) : Bool := s.locals.contains x

/-- Makes a local live. -/
def insert (s : LiveSet) (x : LocalVar) : LiveSet := ⟨s.locals.insert x⟩

/-- Ends the life of a local. -/
def erase (s : LiveSet) (x : LocalVar) : LiveSet := ⟨s.locals.erase x⟩

/-- Makes locals live. -/
def insertAll (s : LiveSet) (xs : List LocalVar) : LiveSet := xs.foldl insert s

/-- The set of these locals. -/
def ofList (xs : List LocalVar) : LiveSet := empty.insertAll xs

/-- The live locals, ascending. -/
def toList (s : LiveSet) : List LocalVar := s.locals.toList

/-- The number of live locals. -/
def size (s : LiveSet) : Nat := s.locals.size

/-- Is no local live? -/
def isEmpty (s : LiveSet) : Bool := s.locals.isEmpty

/-- The names of the live locals, ascending. -/
def names (s : LiveSet) : List String := s.toList.map LocalVar.name

/-- The set as text. -/
def text (s : LiveSet) : String := Text.braced s.names

/-- Live on either side. -/
def union (s t : LiveSet) : LiveSet := ⟨s.locals ∪ t.locals⟩

instance : Join LiveSet := ⟨union⟩

instance : Describe LiveSet where
  describe s := Text.applied "LiveSet" (Text.braced (s.toList.map describe))

instance : Store LiveSet where

end LiveSet

namespace LiveLocals

/-- The locals that the operands of a node read. -/
def operandReads (g : Graph) (kind : NodeKind) : List LocalVar :=
  kind.operands.filterMap g.localRead?

/-- The locals live before a node, given those live after it. -/
def before (g : Graph) (kind : NodeKind) (after : LiveSet) : LiveSet :=
  match kind with
  | .localRead x => after.insert x
  | .assignment x _ => (after.erase x).insertAll (operandReads g kind)
  | _ => after.insertAll (operandReads g kind)

/-- What a node makes of the arriving flow. -/
def transfer (scene : Scene Empty) (n : Node) (flow : Flow LiveSet) : Outcome Empty LiveSet :=
  .single none (before scene.graph n.kind flow.regular)

/-- Live locals. -/
def analysis : Analysis Empty LiveSet where
  boundary := .backward (fun _ _ => .empty) (fun _ => .empty)
  transfer := transfer

end LiveLocals

end FlowFixpoint
