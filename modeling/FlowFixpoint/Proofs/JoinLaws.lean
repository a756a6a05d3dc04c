/-
# FlowFixpoint.Proofs.JoinLaws — joins that obey the laws, and the order they induce.

The classes of values and stores promise nothing about their operations. This module names the
promise a sound analysis makes, an associative, commutative and idempotent join, and shows that
every value and store of the shipped analyses keeps it: flat values, nullness, environments, live
sets, and flows of one or two stores.

The order is the one that the contract checks test: `a` is below `b` when joining `a` into `b`
changes nothing.
-/
import FlowFixpoint.Analyses.LiveLocals
import FlowFixpoint.Analyses.Nullness
import FlowFixpoint.Domain.Flat
import Mathlib.Tactic.Common

namespace FlowFixpoint

open Std (TransOrd LawfulEqOrd)

/-! ## Laws and order -/

/-- A join that is associative, commutative and idempotent. -/
class LawfulJoin (α : Type) [Join α] : Prop where
  join_assoc : ∀ a b c : α, join (join a b) c = join a (join b c)
  join_comm : ∀ a b : α, join a b = join b a
  join_self : ∀ a : α, join a a = a

/-- A store without a widening of its own. -/
class PlainWidening (S : Type) [Store S] : Prop where
  widen_eq : ∀ a b : S, widen a b = join a b

export LawfulJoin (join_assoc join_comm join_self)
export PlainWidening (widen_eq)

/-- Joining `a` into `b` changes nothing. -/
def Below {α : Type} [Join α] (a b : α) : Prop := join b a = b

theorem isUpperBound_iff {α : Type} [Join α] [DecidableEq α] {a b : α} :
    isUpperBound b a = true ↔ Below a b := by
  simp [isUpperBound, Below]

namespace Below

variable {α : Type} [Join α] [LawfulJoin α] {a b c : α}

theorem refl (a : α) : Below a a := join_self a

theorem trans (hab : Below a b) (hbc : Below b c) : Below a c := by
  unfold Below at *
  calc join c a = join (join c b) a := by rw [hbc]
    _ = join c (join b a) := join_assoc c b a
    _ = c := by rw [hab, hbc]

theorem join_left (a b : α) : Below a (join a b) := by
  unfold Below
  rw [join_comm, ← join_assoc, join_self]

theorem join_right (a b : α) : Below b (join a b) := by
  unfold Below
  rw [join_assoc, join_self]

theorem antisymm (hab : Below a b) (hba : Below b a) : a = b := by
  unfold Below at hab hba
  rw [← hba, join_comm, hab]

end Below

/-- A join is the least element above both. -/
theorem join_below_iff {α : Type} [Join α] [LawfulJoin α] {a b c : α} :
    Below (join a b) c ↔ Below a c ∧ Below b c := by
  constructor
  · intro h
    exact ⟨(Below.join_left a b).trans h, (Below.join_right a b).trans h⟩
  · rintro ⟨ha, hb⟩
    unfold Below at *
    rw [← join_assoc, ha, hb]

/-! ## Flat values and nullness -/

instance {α : Type} [DecidableEq α] : LawfulJoin (Flat α) where
  join_assoc a b c := by
    cases a <;> cases b <;> cases c <;> simp only [join, Flat.lub]
    all_goals split_ifs <;> simp_all
  join_comm a b := by
    cases a <;> cases b <;> simp only [join, Flat.lub]
    split_ifs <;> simp_all
  join_self a := by
    cases a <;> simp [join, Flat.lub]

/-- The order of flat values is the order of their join. -/
theorem Flat.isBelow_iff {α : Type} [DecidableEq α] {a b : Flat α} :
    a.isBelow b = true ↔ Below a b := by
  cases a <;> cases b <;> simp [isBelow, Below, join, lub, eq_comm]

instance : LawfulJoin Nullness where
  join_assoc a b c := by cases a <;> cases b <;> cases c <;> rfl
  join_comm a b := by cases a <;> cases b <;> rfl
  join_self a := by cases a <;> rfl

/-! ## Environments -/

namespace Env

variable {κ β : Type} [Ord κ] [TransOrd κ]

@[simp]
theorem get?_empty (k : κ) : (empty : Env κ β).get? k = none := by
  simp [empty, get?]

variable [LawfulEqOrd κ]

/-- Environments with the same bindings are equal. -/
theorem ext_get? {a b : Env κ β} (h : ∀ k, a.get? k = b.get? k) : a = b := by
  apply Env.ext
  exact Std.ExtTreeMap.ext_getElem? fun {k} => h k

theorem get?_set [DecidableEq κ] (e : Env κ β) (k k' : κ) (v : β) :
    (e.set k v).get? k' = if k = k' then some v else e.get? k' := by
  simp [set, get?, Std.ExtTreeMap.getElem?_insert]

/-- Binding keys to one value binds each of them to it. -/
theorem get?_ofList_map [DecidableEq κ] {ks : List κ} {k : κ} (hk : k ∈ ks) (v : β) :
    (ofList (ks.map fun k => (k, v))).get? k = some v := by
  have hmain : ∀ (ks : List κ) (e : Env κ β), k ∈ ks ∨ e.get? k = some v →
      (ks.foldl (fun e k => e.set k v) e).get? k = some v := by
    intro ks
    induction ks with
    | nil => exact fun e h => h.resolve_left List.not_mem_nil
    | cons j ks ih =>
      intro e h
      refine ih (e.set j v) ?_
      rw [get?_set]
      by_cases hjk : j = k
      · exact .inr (if_pos hjk)
      · rw [if_neg hjk]
        exact h.imp_left fun hmem => (List.mem_cons.mp hmem).resolve_left (Ne.symm hjk)
  rw [ofList, List.foldl_map]
  exact hmain ks empty (.inl hk)

/-- A key that some bindings do not mention keeps its value while they are absorbed. -/
theorem get?_foldl_absorb_of_notMem [Join β] {k : κ} (bindings : List (κ × β)) (e : Env κ β)
    (hk : k ∉ bindings.map Prod.fst) : (bindings.foldl absorb e).get? k = e.get? k := by
  classical
  induction bindings generalizing e with
  | nil => rfl
  | cons binding bindings ih =>
    rw [List.map_cons, List.mem_cons, not_or] at hk
    rw [List.foldl_cons, ih _ hk.2, absorb, get?_set, if_neg (Ne.symm hk.1)]

/-- A key that is bound once among some bindings has met that one value when they are absorbed. -/
theorem get?_foldl_absorb_of_mem [Join β] {k : κ} {v : β} (bindings : List (κ × β)) (e : Env κ β)
    (honce : (bindings.map Prod.fst).Nodup) (hk : (k, v) ∈ bindings) :
    (bindings.foldl absorb e).get? k = some (e.joinAt k v) := by
  classical
  -- the key is not mentioned before its binding, and not after it either
  induction bindings generalizing e with
  | nil => exact absurd hk List.not_mem_nil
  | cons binding bindings ih =>
    rw [List.map_cons, List.nodup_cons] at honce
    rw [List.foldl_cons]
    rcases List.mem_cons.mp hk with rfl | hk
    · rw [get?_foldl_absorb_of_notMem _ _ honce.1, absorb, get?_set, if_pos rfl]
    · have hother : binding.1 ≠ k := fun heq =>
        honce.1 (heq ▸ List.mem_map_of_mem (f := Prod.fst) hk)
      rw [ih _ honce.2 hk, joinAt, joinAt, absorb, get?_set, if_neg hother]

theorem nodup_keys_toList (e : Env κ β) : (e.toList.map Prod.fst).Nodup := by
  refine List.pairwise_map.mpr (e.entries.distinct_keys_toList.imp ?_)
  intro x y hne heq
  exact hne (LawfulEqOrd.compare_eq_iff_eq.mpr heq)

theorem mem_toList_iff {e : Env κ β} {k : κ} {v : β} : (k, v) ∈ e.toList ↔ e.get? k = some v :=
  Std.ExtTreeMap.mem_toList_iff_getElem?_eq_some

/-- What a join binds a key to. -/
theorem get?_join [Join β] (a b : Env κ β) (k : κ) :
    (join a b).get? k =
      match a.get? k, b.get? k with
      | some u, some v => some (join u v)
      | some u, none => some u
      | none, v => v := by
  change (b.toList.foldl absorb a).get? k = _
  cases hb : b.get? k with
  | none =>
    have hunbound : k ∉ b.toList.map Prod.fst := by
      intro hmem
      obtain ⟨⟨_, v⟩, hv, rfl⟩ := List.mem_map.mp hmem
      simp [mem_toList_iff.mp hv] at hb
    rw [get?_foldl_absorb_of_notMem _ _ hunbound]
    cases a.get? k <;> rfl
  | some v =>
    rw [get?_foldl_absorb_of_mem _ _ b.nodup_keys_toList (mem_toList_iff.mpr hb), joinAt]
    cases a.get? k <;> rfl

instance [Join β] [LawfulJoin β] : LawfulJoin (Env κ β) where
  join_assoc a b c := by
    apply ext_get?
    intro k
    simp only [get?_join]
    cases a.get? k <;> cases b.get? k <;> cases c.get? k <;> simp [join_assoc]
  join_comm a b := by
    apply ext_get?
    intro k
    simp only [get?_join]
    cases ha : a.get? k <;> cases hb : b.get? k <;> simp [join_comm]
  join_self a := by
    apply ext_get?
    intro k
    simp only [get?_join]
    cases a.get? k <;> simp [join_self]

instance [Join β] [Describe κ] [Describe β] : PlainWidening (Env κ β) where
  widen_eq _ _ := rfl

/-- Below is binding by binding: every bound key is bound above, at or above its value. -/
theorem below_iff [Join β] {a b : Env κ β} :
    Below a b ↔ ∀ k v, a.get? k = some v → ∃ u, b.get? k = some u ∧ Below v u := by
  constructor
  · intro h k v hv
    have hk := congrArg (fun e => e.get? k) (show join b a = b from h)
    simp only [get?_join, hv] at hk
    cases hb : b.get? k with
    | none => simp [hb] at hk
    | some u =>
      refine ⟨u, rfl, ?_⟩
      simpa [hb, Below] using hk
  · intro h
    apply ext_get?
    intro k
    rw [get?_join]
    cases ha : a.get? k with
    | none => cases b.get? k <;> rfl
    | some v =>
      obtain ⟨u, hu, hvu⟩ := h k v ha
      simpa [hu, Below] using hvu

end Env

/-! ## Live sets -/

namespace LiveSet

@[simp]
theorem contains_empty (x : LocalVar) : empty.contains x = false := by
  simp [empty, contains]

@[simp]
theorem contains_insert (s : LiveSet) (x y : LocalVar) :
    (s.insert x).contains y = (x = y || s.contains y) := by
  simp [insert, contains, Std.ExtTreeSet.contains_insert, BEq.beq]

@[simp]
theorem contains_erase (s : LiveSet) (x y : LocalVar) :
    (s.erase x).contains y = (x ≠ y && s.contains y) := by
  have hcompare : (compare x y != .eq) = decide (x ≠ y) := by
    by_cases hxy : x = y <;> simp [hxy]
  simp [erase, contains, Std.ExtTreeSet.contains_erase, hcompare]

theorem contains_insertAll (s : LiveSet) (xs : List LocalVar) (y : LocalVar) :
    (s.insertAll xs).contains y = (y ∈ xs || s.contains y) := by
  induction xs generalizing s with
  | nil => simp [insertAll]
  | cons x xs ih =>
    change ((s.insert x).insertAll xs).contains y = _
    rw [ih, contains_insert]
    by_cases hx : x = y
    · simp [hx]
    · simp [hx, Ne.symm hx]

@[simp]
theorem contains_join (s t : LiveSet) (x : LocalVar) :
    (join s t).contains x = (s.contains x || t.contains x) := by
  change (s.locals ∪ t.locals).contains x = _
  rw [Std.ExtTreeSet.contains_union]
  rfl

theorem ext_contains {s t : LiveSet} (h : ∀ x, s.contains x = t.contains x) : s = t := by
  apply LiveSet.ext
  apply Std.ExtTreeSet.ext_mem
  intro x
  rw [← Std.ExtTreeSet.contains_iff_mem, ← Std.ExtTreeSet.contains_iff_mem]
  exact Bool.eq_iff_iff.mp (h x)

instance : LawfulJoin LiveSet where
  join_assoc a b c := ext_contains fun x => by simp [Bool.or_assoc]
  join_comm a b := ext_contains fun x => by simp [Bool.or_comm]
  join_self a := ext_contains fun x => by simp

instance : PlainWidening LiveSet where
  widen_eq _ _ := rfl

/-- Below is inclusion. -/
theorem below_iff {s t : LiveSet} :
    Below s t ↔ ∀ x, s.contains x = true → t.contains x = true := by
  constructor
  · intro h x hx
    have hj := congrArg (fun u => u.contains x) (show join t s = t from h)
    simpa [hx] using hj.symm
  · intro h
    apply ext_contains
    intro x
    have hx := h x
    cases hs : s.contains x <;> cases ht : t.contains x <;> simp_all

end LiveSet

/-! ## Flows -/

namespace Flow

variable {S : Type}

/-- The store for an outcome. -/
def side (flow : Flow S) (outcome : Bool) : S :=
  if outcome then flow.onTrue else flow.onFalse

@[simp]
theorem side_single (s : S) (outcome : Bool) : (single s).side outcome = s := by
  cases outcome <;> rfl

@[simp]
theorem side_combine (op : S → S → S) (a b : Flow S) (outcome : Bool) :
    (combine op a b).side outcome = op (a.side outcome) (b.side outcome) := by
  cases a <;> cases b <;> cases outcome <;> rfl

@[simp]
theorem isSplit_combine (op : S → S → S) (a b : Flow S) :
    (combine op a b).isSplit = (a.isSplit || b.isSplit) := by
  cases a <;> cases b <;> rfl

/-- A flow is its two sides and whether it is split. -/
theorem ext_side {a b : Flow S} (hsplit : a.isSplit = b.isSplit)
    (hside : ∀ outcome, a.side outcome = b.side outcome) : a = b := by
  have htrue := hside true
  have hfalse := hside false
  cases a <;> cases b <;> simp_all [isSplit, side, onTrue, onFalse]

/-- The regular store is the join of the two sides, also where they are one. -/
theorem regular_eq_join [Join S] [LawfulJoin S] (a : Flow S) :
    a.regular = join a.onTrue a.onFalse := by
  cases a with
  | single s => exact (join_self s).symm
  | split t f => rfl

variable [Store S]

@[simp]
theorem side_join (a b : Flow S) (outcome : Bool) :
    (join a b).side outcome = join (a.side outcome) (b.side outcome) :=
  side_combine join a b outcome

@[simp]
theorem isSplit_join (a b : Flow S) : (join a b).isSplit = (a.isSplit || b.isSplit) :=
  isSplit_combine join a b

instance [LawfulJoin S] : LawfulJoin (Flow S) where
  join_assoc a b c := by
    apply ext_side
    · simp [Bool.or_assoc]
    · intro outcome
      simp [join_assoc]
  join_comm a b := by
    apply ext_side
    · simp [Bool.or_comm]
    · intro outcome
      simp only [side_join]
      exact join_comm _ _
  join_self a := by
    apply ext_side
    · simp
    · intro outcome
      simp [join_self]

instance [PlainWidening S] : PlainWidening (Flow S) where
  widen_eq a b := by
    cases a <;> cases b <;> simp only [widen, join, combine, PlainWidening.widen_eq]

/-- Below is side by side, and a split flow is never below a single one. -/
theorem below_iff {a b : Flow S} :
    Below a b ↔ (a.isSplit = true → b.isSplit = true) ∧
      ∀ outcome, Below (a.side outcome) (b.side outcome) := by
  constructor
  · intro h
    have h' : join b a = b := h
    refine ⟨?_, ?_⟩
    · intro ha
      rw [← h', isSplit_join, ha, Bool.or_true]
    · intro outcome
      unfold Below
      rw [← side_join, h']
  · rintro ⟨hsplit, hside⟩
    apply ext_side
    · rw [isSplit_join]
      cases ha : a.isSplit with
      | false => simp
      | true => simp [hsplit ha]
    · intro outcome
      rw [side_join]
      exact hside outcome

variable [LawfulJoin S]

/-- Each side of a flow is below its regular store. -/
theorem side_below_regular (a : Flow S) (outcome : Bool) : Below (a.side outcome) a.regular := by
  rw [regular_eq_join]
  cases outcome with
  | false => exact Below.join_right a.onTrue a.onFalse
  | true => exact Below.join_left a.onTrue a.onFalse

end Flow

end FlowFixpoint
