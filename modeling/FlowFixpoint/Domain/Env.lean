/-
# FlowFixpoint.Domain.Env — finite environments, joined key by key.

An environment binds keys to values. A key that is not bound stands below every value, so a join
keeps the keys of both sides. Two environments with the same bindings are equal, however they came
about; an explicit binding to a least value is still a binding.
-/
import FlowFixpoint.Domain.Join

namespace FlowFixpoint

open Std (TransOrd LawfulEqOrd)

/-- A finite map from keys to values. -/
@[ext]
structure Env (κ β : Type) [Ord κ] where
  entries : Std.ExtTreeMap κ β

namespace Env

variable {κ β : Type} [Ord κ] [TransOrd κ]

/-- No key is bound. -/
def empty : Env κ β := ⟨∅⟩

instance : EmptyCollection (Env κ β) := ⟨empty⟩

/-- The value bound to a key. -/
def get? (e : Env κ β) (k : κ) : Option β := e.entries[k]?

/-- Binds a key, replacing its value. -/
def set (e : Env κ β) (k : κ) (v : β) : Env κ β := ⟨e.entries.insert k v⟩

/-- Forgets a key. -/
def erase (e : Env κ β) (k : κ) : Env κ β := ⟨e.entries.erase k⟩

/-- Is the key bound? -/
def contains (e : Env κ β) (k : κ) : Bool := e.entries.contains k

/-- The number of bound keys. -/
def size (e : Env κ β) : Nat := e.entries.size

/-- Is no key bound? -/
def isEmpty (e : Env κ β) : Bool := e.entries.isEmpty

/-- The bindings, by ascending key. -/
def toList (e : Env κ β) : List (κ × β) := e.entries.toList

/-- The bound keys, ascending. -/
def keys (e : Env κ β) : List κ := e.entries.keys

/-- Binds pairs one after the other, so that a later pair wins. -/
def ofList (pairs : List (κ × β)) : Env κ β :=
  pairs.foldl (fun e (k, v) => e.set k v) empty

/-- What a value makes of a key's binding: joined with the value bound so far, if there is one. -/
def joinAt [Join β] (e : Env κ β) (k : κ) (v : β) : β :=
  match e.get? k with
  | some u => join u v
  | none => v

/-- Joins one binding into an environment. -/
def absorb [Join β] (e : Env κ β) (binding : κ × β) : Env κ β :=
  e.set binding.1 (e.joinAt binding.1 binding.2)

/-- Joins key by key: the left side absorbs the bindings of the right side one after the other. Each
meets what its key is bound to by then. -/
def lub [Join β] (a b : Env κ β) : Env κ β := b.toList.foldl absorb a

instance [LawfulEqOrd κ] [DecidableEq β] : DecidableEq (Env κ β) := fun a b =>
  decidable_of_iff (a.entries = b.entries) ⟨Env.ext, congrArg entries⟩

instance [Join β] : Join (Env κ β) := ⟨lub⟩

instance [Describe κ] [Describe β] : Describe (Env κ β) where
  describe e :=
    Text.record "Environment"
      ["entries: " ++ Text.braced (e.toList.map fun (k, v) => describe k ++ ": " ++ describe v)]

instance [Join β] [Describe κ] [Describe β] : Store (Env κ β) where

end Env

end FlowFixpoint
