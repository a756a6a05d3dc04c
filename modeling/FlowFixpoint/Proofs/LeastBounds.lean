/-
# FlowFixpoint.Proofs.LeastBounds — joins as least upper bounds.

An associative, commutative and idempotent join is the least upper bound of the order that the
contract check tests. This module says what that order is where stores are built from values, and
what it is where flows are built from stores.

An environment is above another one if it binds every key of the other to something above. A key that
is not bound is below everything, also below an explicit binding to the least value, and what an
environment has been through leaves no trace but its bindings.

A single store is below two if it is below both of them, and two stores are never below a single one,
not even two copies of it. The projections of a flow keep joins, so it does not matter whether stores
are merged before or after they are taken apart.
-/
import FlowFixpoint.Proofs.JoinLaws

namespace FlowFixpoint

open Std (TransOrd LawfulEqOrd)

/-! ## Least upper bounds -/

/-- The join obeys the laws, the contract check tests an order, and in that order the join of two
elements is the least one above both. -/
structure LeastBounds (α : Type) [Join α] [DecidableEq α] : Prop where
  assoc : ∀ a b c : α, join (join a b) c = join a (join b c)
  comm : ∀ a b : α, join a b = join b a
  self : ∀ a : α, join a a = a
  refl : ∀ a : α, isUpperBound a a = true
  trans : ∀ a b c : α, isUpperBound b a = true → isUpperBound c b = true → isUpperBound c a = true
  antisymm : ∀ a b : α, isUpperBound b a = true → isUpperBound a b = true → a = b
  above : ∀ a b : α, isUpperBound (join a b) a = true ∧ isUpperBound (join a b) b = true
  least : ∀ a b u : α,
    isUpperBound u (join a b) = true ↔ isUpperBound u a = true ∧ isUpperBound u b = true

section Laws

variable (α : Type) [Join α] [LawfulJoin α]

theorem leastBounds [DecidableEq α] : LeastBounds α where
  assoc := join_assoc
  comm := join_comm
  self := join_self
  refl a := isUpperBound_iff.mpr (.refl a)
  trans a b c hab hbc := by
    rw [isUpperBound_iff] at *
    exact hab.trans hbc
  antisymm a b hab hba := by
    rw [isUpperBound_iff] at *
    exact hab.antisymm hba
  above a b := ⟨isUpperBound_iff.mpr (.join_left a b), isUpperBound_iff.mpr (.join_right a b)⟩
  least a b u := by
    simp only [isUpperBound_iff]
    exact join_below_iff

variable {α}

/-- Two joins joined side by side. -/
theorem join_join_join_comm (a b c d : α) :
    join (join a b) (join c d) = join (join a c) (join b d) :=
  calc join (join a b) (join c d) = join a (join (join b c) d) := by rw [join_assoc, join_assoc]
    _ = join a (join (join c b) d) := by rw [join_comm b c]
    _ = join (join a c) (join b d) := by rw [join_assoc, join_assoc]

end Laws

/-! ## Flat values -/

namespace Flat

variable {α : Type} [DecidableEq α]

/-- Below a meet is below both. -/
theorem isBelow_meet (a b c : Flat α) :
    c.isBelow (a.meet b) = (c.isBelow a && c.isBelow b) := by
  cases a with
  | bottom => cases b <;> cases c <;> rfl
  | top => cases b <;> cases c <;> simp [meet, isBelow]
  | known x =>
    cases b with
    | bottom => cases c <;> simp [meet, isBelow]
    | top => cases c <;> simp [meet, isBelow]
    | known y =>
      -- two different values have nothing but the least element below them
      by_cases hxy : x = y <;> cases c <;> simp [meet, isBelow, hxy]
      next z =>
        rintro rfl
        exact hxy

/-- The flat order is the order of its join, with least upper and greatest lower bounds. -/
structure Ordered (α : Type) [DecidableEq α] : Prop where
  bounds : LeastBounds (Flat α)
  isBelow_eq : ∀ a b : Flat α, a.isBelow b = isUpperBound b a
  meet_below : ∀ a b : Flat α, (a.meet b).isBelow a = true ∧ (a.meet b).isBelow b = true
  meet_greatest : ∀ a b c : Flat α,
    c.isBelow a = true → c.isBelow b = true → c.isBelow (a.meet b) = true

theorem ordered (α : Type) [DecidableEq α] : Ordered α where
  bounds := leastBounds (Flat α)
  isBelow_eq a b := by rw [Bool.eq_iff_iff, isBelow_iff, isUpperBound_iff]
  meet_below a b := by
    have hself : (a.meet b).isBelow (a.meet b) = true := isBelow_iff.mpr (.refl _)
    rwa [isBelow_meet, Bool.and_eq_true] at hself
  meet_greatest a b c ha hb := by rw [isBelow_meet, ha, hb, Bool.and_self]

end Flat

/-! ## Environments -/

namespace Env

variable {κ β : Type} [Ord κ] [TransOrd κ] [LawfulEqOrd κ]

theorem get?_erase [DecidableEq κ] (e : Env κ β) (k k' : κ) :
    (e.erase k).get? k' = if k = k' then none else e.get? k' := by
  simp [erase, get?, Std.ExtTreeMap.getElem?_erase]

/-- The last pair with a key binds it. -/
theorem get?_ofList [DecidableEq κ] (pairs : List (κ × β)) (k : κ) :
    (ofList pairs).get? k = pairs.reverse.lookup k := by
  have hmain : ∀ e : Env κ β, (pairs.foldl (fun e p => e.set p.1 p.2) e).get? k =
      (pairs.reverse.lookup k).or (e.get? k) := by
    induction pairs with
    | nil => intro e; rfl
    | cons p pairs ih =>
      intro e
      obtain ⟨j, v⟩ := p
      rw [List.foldl_cons, ih, get?_set, List.reverse_cons, List.lookup_append, Option.or_assoc]
      by_cases hj : j = k
      · simp [hj]
      · simp [List.lookup_cons, hj, beq_eq_false_iff_ne.mpr (Ne.symm hj)]
  have hempty := hmain empty
  rwa [get?_empty, Option.or_none] at hempty

/-- A change of an environment. -/
inductive Edit (κ β : Type) where
  | set (key : κ) (value : β)
  | erase (key : κ)
  /-- Everything is forgotten, and pairs are bound one after the other. -/
  | replace (pairs : List (κ × β))

/-- The environment after a change. -/
def edit (e : Env κ β) : Edit κ β → Env κ β
  | .set k v => e.set k v
  | .erase k => e.erase k
  | .replace pairs => .ofList pairs

/-- The environment after changes one after the other. -/
def editAll (e : Env κ β) (edits : List (Edit κ β)) : Env κ β := edits.foldl edit e

/-- What a key is bound to after a change, from what it was bound to. -/
def Edit.rebind [DecidableEq κ] (k : κ) (old : Option β) : Edit κ β → Option β
  | .set j v => if j = k then some v else old
  | .erase j => if j = k then none else old
  | .replace pairs => pairs.reverse.lookup k

/-- What a key is bound to after changes one after the other. -/
def rebindAll [DecidableEq κ] (k : κ) (old : Option β) (edits : List (Edit κ β)) : Option β :=
  edits.foldl (Edit.rebind k) old

theorem get?_edit [DecidableEq κ] (e : Env κ β) (c : Edit κ β) (k : κ) :
    (e.edit c).get? k = c.rebind k (e.get? k) := by
  cases c with
  | set j v => exact get?_set e j k v
  | erase j => exact get?_erase e j k
  | replace pairs => exact get?_ofList pairs k

theorem get?_editAll [DecidableEq κ] (e : Env κ β) (edits : List (Edit κ β)) (k : κ) :
    (e.editAll edits).get? k = rebindAll k (e.get? k) edits := by
  induction edits generalizing e with
  | nil => rfl
  | cons c edits ih =>
    change ((e.edit c).editAll edits).get? k = rebindAll k (c.rebind k (e.get? k)) edits
    rw [ih, get?_edit]

/-- Environments are joined and compared key by key, and are nothing but their bindings. -/
structure JoinsByKey (κ β : Type) [Ord κ] [TransOrd κ] [LawfulEqOrd κ] [DecidableEq κ] [Join β]
    [DecidableEq β] : Prop where
  bounds : LeastBounds (Env κ β)
  /-- Where both sides bind the key the values are joined, else the one binding there is stays. -/
  get?_join : ∀ (a b : Env κ β) (k : κ), (join a b).get? k = (a.get? k).merge join (b.get? k)
  isUpperBound_iff : ∀ u a : Env κ β, isUpperBound u a = true ↔
    ∀ k v, a.get? k = some v → ∃ w, u.get? k = some w ∧ isUpperBound w v = true
  get?_editAll : ∀ (e : Env κ β) (edits : List (Edit κ β)) (k : κ),
    (e.editAll edits).get? k = rebindAll k (e.get? k) edits
  editAll_eq_iff : ∀ (e e' : Env κ β) (edits edits' : List (Edit κ β)),
    e.editAll edits = e'.editAll edits' ↔
      ∀ k, rebindAll k (e.get? k) edits = rebindAll k (e'.get? k) edits'

theorem joinsByKey (κ β : Type) [Ord κ] [TransOrd κ] [LawfulEqOrd κ] [DecidableEq κ] [Join β]
    [DecidableEq β] [LawfulJoin β] : JoinsByKey κ β where
  bounds := leastBounds (Env κ β)
  get?_join a b k := by
    rw [get?_join]
    cases a.get? k <;> cases b.get? k <;> rfl
  isUpperBound_iff u a := by simp only [FlowFixpoint.isUpperBound_iff, below_iff]
  get?_editAll := get?_editAll
  editAll_eq_iff e e' edits edits' := by
    simp only [← get?_editAll]
    constructor
    · intro h k
      rw [h]
    · exact ext_get?

end Env

/-- Where the join of values obeys the laws, environments of them are joined key by key, which gives
the least environment above both. Flat values of any type obey the laws; their order is that of the
join, and meets are greatest lower bounds. Equality on values is lawful, as is asked of all values:
`DecidableEq` decides whether two of them are the same. -/
theorem environments_join_key_by_key (κ β α : Type) [Ord κ] [TransOrd κ] [LawfulEqOrd κ]
    [DecidableEq κ] [Join β] [DecidableEq β] [LawfulJoin β] [DecidableEq α] :
    Env.JoinsByKey κ β ∧ Flat.Ordered α :=
  ⟨Env.joinsByKey κ β, Flat.ordered α⟩

/-- An explicit binding to the least value survives a join and tells environments apart; the second
of two pairs wins, and what was bound in between does not show. -/
theorem constantStores_join_key_by_key :
    (join (Env.ofList [((⟨"x"⟩ : LocalVar), (.bottom : Flat Int64))])
        (Env.ofList [(⟨"y"⟩, .known 1), (⟨"y"⟩, .known 2)])).toList =
        [(⟨"x"⟩, .bottom), (⟨"y"⟩, .known 2)] ∧
      Env.ofList [((⟨"x"⟩ : LocalVar), (.bottom : Flat Int64))] ≠ ∅ ∧
      (Env.empty : Env LocalVar (Flat Int64)).editAll
          [.set ⟨"x"⟩ .top, .set ⟨"y"⟩ (.known 2), .erase ⟨"x"⟩] =
        Env.ofList [(⟨"y"⟩, .known 1), (⟨"y"⟩, .known 2)] ∧
      Env.JoinsByKey LocalVar (Flat Int64) ∧ Flat.Ordered String :=
  ⟨by decide +kernel, by decide +kernel, by decide +kernel,
    environments_join_key_by_key LocalVar (Flat Int64) String⟩

/-! ## Flows -/

namespace Flow

variable {S : Type} [Store S]

theorem onTrue_join (a b : Flow S) : (join a b).onTrue = join a.onTrue b.onTrue :=
  side_join a b true

theorem onFalse_join (a b : Flow S) : (join a b).onFalse = join a.onFalse b.onFalse :=
  side_join a b false

theorem regular_join [LawfulJoin S] (a b : Flow S) :
    (join a b).regular = join a.regular b.regular := by
  rw [regular_eq_join, regular_eq_join, regular_eq_join, onTrue_join, onFalse_join,
    join_join_join_comm]

/-- Flows are joined and compared side by side, and their projections keep joins. -/
structure JoinsBySide (S : Type) [Store S] [DecidableEq S] : Prop where
  bounds : LeastBounds (Flow S)
  single_single : ∀ s s' : S, isUpperBound (single s') (single s) = isUpperBound s' s
  single_split : ∀ s t f : S,
    isUpperBound (split t f) (single s) = (isUpperBound t s && isUpperBound f s)
  split_single : ∀ s t f : S, isUpperBound (single s) (split t f) = false
  split_split : ∀ t f t' f' : S,
    isUpperBound (split t' f') (split t f) = (isUpperBound t' t && isUpperBound f' f)
  onTrue_join : ∀ a b : Flow S, (join a b).onTrue = join a.onTrue b.onTrue
  onFalse_join : ∀ a b : Flow S, (join a b).onFalse = join a.onFalse b.onFalse
  regular_join : ∀ a b : Flow S, (join a b).regular = join a.regular b.regular
  regular_above : ∀ a : Flow S,
    isUpperBound a.regular a.onTrue = true ∧ isUpperBound a.regular a.onFalse = true

end Flow

/-- Where the join of stores obeys the laws, so does the join of flows in any mixture of single and
split ones. It is the least upper bound, side by side, and the projections keep it. -/
theorem flows_join_side_by_side (S : Type) [Store S] [DecidableEq S] [LawfulJoin S] :
    Flow.JoinsBySide S where
  bounds := leastBounds (Flow S)
  single_single s s' := by
    rw [Bool.eq_iff_iff, isUpperBound_iff, isUpperBound_iff, Flow.below_iff]
    simp [Flow.isSplit]
  single_split s t f := by
    rw [Bool.eq_iff_iff, Bool.and_eq_true]
    simp [isUpperBound_iff, Flow.below_iff, Flow.isSplit, Flow.side, Flow.onTrue, Flow.onFalse,
      and_comm]
  split_single s t f := by
    rw [Bool.eq_false_iff, Ne, isUpperBound_iff, Flow.below_iff]
    simp [Flow.isSplit]
  split_split t f t' f' := by
    rw [Bool.eq_iff_iff, Bool.and_eq_true]
    simp [isUpperBound_iff, Flow.below_iff, Flow.isSplit, Flow.side, Flow.onTrue, Flow.onFalse,
      and_comm]
  onTrue_join := Flow.onTrue_join
  onFalse_join := Flow.onFalse_join
  regular_join := Flow.regular_join
  regular_above a :=
    ⟨isUpperBound_iff.mpr (a.side_below_regular true),
      isUpperBound_iff.mpr (a.side_below_regular false)⟩

/-- A live set is below the split of its two copies and the other way round it is not, so that a join
of the two is split. -/
theorem liveSets_join_side_by_side :
    let s : LiveSet := LiveSet.empty.insert ⟨"x"⟩
    join (Flow.single s) (.split s s) = .split s s ∧
      isUpperBound (Flow.split s s) (.single s) = true ∧
      isUpperBound (Flow.single s) (.split s s) = false ∧
      Flow.JoinsBySide LiveSet :=
  ⟨by decide +kernel, by decide +kernel, by decide +kernel, flows_join_side_by_side LiveSet⟩

end FlowFixpoint
