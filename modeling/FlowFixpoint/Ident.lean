/-
# FlowFixpoint.Ident — what identifies graphs, blocks, nodes, trees, locals and exceptions.

Blocks and nodes are numbered within the graph that owns them, and their identifiers carry that
graph's number, so identifiers of different graphs never meet in one table. Locals and exception
types are identified by name. Every identifier is ordered, and the order decides equality; that is
what the extensional tables of this library ask of a key.

The numbers of graphs and the positions of blocks and nodes are 32-bit numbers. They are natural
numbers here, and everything said about them is meant as long as they stay below `UInt32.size`;
`Proofs.Numbering` says when they do.
-/
import Std.Data.ExtTreeMap
import Std.Data.ExtTreeSet

namespace FlowFixpoint

open Std (TransCmp TransOrd LawfulEqOrd)

/-- Graphs are numbered, below `UInt32.size`. -/
abbrev GraphId := Nat

/-- A source tree is known by a number that the caller chooses. -/
abbrev TreeId := Nat

/-! ## Blocks and nodes -/

/-- A block, by its graph and its position there, below `UInt32.size`. -/
structure BlockId where
  graph : GraphId
  index : Nat
deriving DecidableEq

/-- A node, by its graph and its position there, below `UInt32.size`. -/
structure NodeId where
  graph : GraphId
  index : Nat
deriving DecidableEq

namespace BlockId

instance : ToString BlockId := ⟨fun b => s!"b{b.graph}.{b.index}"⟩

instance : Ord BlockId := ⟨compareLex (compareOn graph) (compareOn index)⟩

instance : TransOrd BlockId :=
  inferInstanceAs (TransCmp (compareLex (compareOn graph) (compareOn index)))

instance : LawfulEqOrd BlockId where
  eq_of_compare {a b} h := by
    have h' : (compare a.graph b.graph).then (compare a.index b.index) = .eq := h
    obtain ⟨hg, hi⟩ := Ordering.then_eq_eq.mp h'
    cases a
    cases b
    simp_all

end BlockId

namespace NodeId

instance : ToString NodeId := ⟨fun n => s!"n{n.graph}.{n.index}"⟩

instance : Ord NodeId := ⟨compareLex (compareOn graph) (compareOn index)⟩

instance : TransOrd NodeId :=
  inferInstanceAs (TransCmp (compareLex (compareOn graph) (compareOn index)))

instance : LawfulEqOrd NodeId where
  eq_of_compare {a b} h := by
    have h' : (compare a.graph b.graph).then (compare a.index b.index) = .eq := h
    obtain ⟨hg, hi⟩ := Ordering.then_eq_eq.mp h'
    cases a
    cases b
    simp_all

end NodeId

/-! ## Names -/

/-- A local variable is its name. -/
structure LocalVar where
  name : String
deriving DecidableEq

/-- An exception type is its name. -/
structure ExceptionType where
  name : String
deriving DecidableEq

namespace LocalVar

instance : ToString LocalVar := ⟨name⟩

instance : Ord LocalVar := ⟨compareOn name⟩

instance : TransOrd LocalVar := inferInstanceAs (TransCmp (compareOn name))

instance : LawfulEqOrd LocalVar where
  eq_of_compare {a b} h := by
    have h' : compare a.name b.name = .eq := h
    cases a
    cases b
    simp_all

/-- These locals, each once, ascending. -/
def sorted (xs : List LocalVar) : List LocalVar := (Std.ExtTreeSet.ofList xs).toList

end LocalVar

namespace ExceptionType

instance : ToString ExceptionType := ⟨name⟩

instance : Ord ExceptionType := ⟨compareOn name⟩

instance : TransOrd ExceptionType := inferInstanceAs (TransCmp (compareOn name))

instance : LawfulEqOrd ExceptionType where
  eq_of_compare {a b} h := by
    have h' : compare a.name b.name = .eq := h
    cases a
    cases b
    simp_all

/-- These exception types, each once, ascending. -/
def sorted (es : List ExceptionType) : List ExceptionType := (Std.ExtTreeSet.ofList es).toList

end ExceptionType

end FlowFixpoint
