/-
# FlowFixpoint.Proofs.Delivery — what deliveries do to a pass.

A delivery touches only the block it reaches: either it leaves the recorded input as it is and
nothing becomes pending, or it changes the input, counts the change and makes the block pending.
`Delivered` is that frame, closed under composition.

Where merges are joins, be it that the block is no widening point or that the store does not widen,
more is true: what has been delivered stays absorbed, and delivering it again changes nothing.
-/
import FlowFixpoint.Fixpoint.Pass
import FlowFixpoint.Proofs.JoinLaws
import FlowFixpoint.Proofs.Pending

namespace FlowFixpoint

variable {V S : Type}

/-! ## Slots -/

namespace Slots

/-- The store in the slot of an outcome. -/
def side (slots : Slots S) (outcome : Bool) : Option S :=
  if outcome then slots.onTrue else slots.onFalse

/-- The slots after a store has been put into one of them. -/
def put (slots : Slots S) (outcome : Bool) (store : S) : Slots S :=
  if outcome then { slots with onTrue := some store } else { slots with onFalse := some store }

/-- The input that slots amount to. -/
def flow? (slots : Slots S) : Option (Flow S) :=
  match slots.onTrue, slots.onFalse with
  | some t, some f => some (.split t f)
  | some store, none | none, some store => some (.single store)
  | none, none => none

theorem side_put (slots : Slots S) (outcome other : Bool) (store : S) :
    (slots.put outcome store).side other =
      if outcome = other then some store else slots.side other := by
  cases outcome <;> cases other <;> simp [put, side]

theorem put_of_side {slots : Slots S} {outcome : Bool} {store : S}
    (h : slots.side outcome = some store) : slots.put outcome store = slots := by
  cases outcome <;> cases slots <;> simp_all [put, side]

theorem flow?_put_isSome (slots : Slots S) (outcome : Bool) (store : S) :
    ((slots.put outcome store).flow?).isSome := by
  rcases slots with ⟨_ | t, _ | f⟩ <;> cases outcome <;> rfl

theorem flow?_isSome_of_side {slots : Slots S} {outcome : Bool} {store : S}
    (h : slots.side outcome = some store) : (slots.flow?).isSome := by
  rcases slots with ⟨_ | t, _ | f⟩ <;> cases outcome <;> simp_all [side, flow?]

/-- A filled slot is the side of its outcome. -/
theorem side_of_flow? {slots : Slots S} {φ : Flow S} (hφ : slots.flow? = some φ) {outcome : Bool}
    {store : S} (h : slots.side outcome = some store) : φ.side outcome = store := by
  rcases slots with ⟨_ | t, _ | f⟩ <;> cases outcome <;> cases φ <;>
    simp_all [side, flow?, Flow.side, Flow.onTrue, Flow.onFalse]

/-- Each side of the input comes from some slot. -/
theorem exists_side_of_flow? {slots : Slots S} {φ : Flow S} (hφ : slots.flow? = some φ)
    (outcome : Bool) : ∃ other : Bool, slots.side other = some (φ.side outcome) := by
  rcases slots with ⟨_ | t, _ | f⟩ <;> cases outcome <;> cases φ <;>
    simp_all [side, flow?, Flow.side, Flow.onTrue, Flow.onFalse]

/-- The input is split exactly when both slots are filled. -/
theorem isSplit_of_flow? {slots : Slots S} {φ : Flow S} (hφ : slots.flow? = some φ) :
    φ.isSplit = true ↔ ∀ outcome, (slots.side outcome).isSome := by
  rcases slots with ⟨_ | t, _ | f⟩ <;> cases φ <;> simp_all [side, flow?, Flow.isSplit]

end Slots

/-! ## Reading a pass -/

namespace Pass

/-- The recorded input of a block. -/
def input? (p : Pass V S) (b : BlockId) : Option (Flow S) := p.findings.inputs[b]?

/-- How often the recorded input of a block has changed. -/
def changes (p : Pass V S) (b : BlockId) : Nat := p.updates[b]?.getD 0

/-- The slots of a block. -/
def slotsOf (p : Pass V S) (b : BlockId) : Slots S := p.slots[b]?.getD {}

/-- Is the block pending? -/
def IsPending (p : Pass V S) (b : BlockId) : Prop := b ∈ p.pending.queued

/-- The recorded input is the one that the slots amount to. -/
def Matched (p : Pass V S) (b : BlockId) : Prop := p.input? b = (p.slotsOf b).flow?

section Record

variable (p : Pass V S) (b c : BlockId) (φ : Flow S)

@[simp]
theorem input?_record : (p.record b φ).input? c = if b = c then some φ else p.input? c := by
  simp [record, input?, Std.ExtTreeMap.getElem?_insert]

@[simp]
theorem changes_record :
    (p.record b φ).changes c = if b = c then p.changes b + 1 else p.changes c := by
  simp only [record, changes, Std.ExtTreeMap.getElem?_insert, Std.LawfulEqCmp.compare_eq_iff_eq]
  split <;> simp

@[simp]
theorem slotsOf_record : (p.record b φ).slotsOf c = p.slotsOf c := rfl

@[simp]
theorem isPending_record : (p.record b φ).IsPending c ↔ c = b ∨ p.IsPending c :=
  Worklist.mem_push

end Record

/-- Two passes that differ by deliveries only. -/
structure Delivered (p p' : Pass V S) : Prop where
  /-- Only inputs change among the findings. -/
  findings : p'.findings = { p.findings with inputs := p'.findings.inputs }
  visits : p'.visits = p.visits
  order : p'.pending.order = p.pending.order
  sound : p.pending.Sound → p'.pending.Sound
  changes_le : ∀ b, p.changes b ≤ p'.changes b
  /-- Without a counted change nothing has happened to the block. -/
  quiet : ∀ b, p'.changes b = p.changes b →
    p'.input? b = p.input? b ∧ (p'.IsPending b ↔ p.IsPending b)
  /-- A counted change makes the block pending. -/
  loud : ∀ b, p.changes b < p'.changes b → p'.IsPending b ∧ (p'.input? b).isSome

namespace Delivered

theorem refl (p : Pass V S) : Delivered p p where
  findings := rfl
  visits := rfl
  order := rfl
  sound := id
  changes_le _ := Nat.le_refl _
  quiet _ _ := ⟨rfl, Iff.rfl⟩
  loud _ h := absurd h (Nat.lt_irrefl _)

theorem trans {p q r : Pass V S} (h : Delivered p q) (h' : Delivered q r) : Delivered p r where
  findings := by
    rw [h'.findings, h.findings]
  visits := h'.visits.trans h.visits
  order := h'.order.trans h.order
  sound hp := h'.sound (h.sound hp)
  changes_le b := Nat.le_trans (h.changes_le b) (h'.changes_le b)
  quiet b heq := by
    -- the count never falls, so it is the same all the way
    have hpq := h.changes_le b
    have hqr := h'.changes_le b
    obtain ⟨hi, hp⟩ := h.quiet b (by omega)
    obtain ⟨hi', hp'⟩ := h'.quiet b (by omega)
    exact ⟨hi'.trans hi, hp'.trans hp⟩
  loud b hlt := by
    rcases Nat.lt_or_ge (q.changes b) (r.changes b) with hqr | hqr
    · exact h'.loud b hqr
    · have hqr' := h'.changes_le b
      obtain ⟨hpending, hinput⟩ := h.loud b (by omega)
      obtain ⟨hi, hp⟩ := h'.quiet b (by omega)
      exact ⟨hp.mpr hpending, by rw [hi]; exact hinput⟩

theorem values {p p' : Pass V S} (h : Delivered p p') : p'.findings.values = p.findings.values := by
  rw [h.findings]

end Delivered

theorem delivered_record (p : Pass V S) (b : BlockId) (φ : Flow S) :
    Delivered p (p.record b φ) where
  findings := rfl
  visits := rfl
  order := p.pending.order_push b
  sound h := h.push b
  changes_le c := by
    rw [changes_record]
    split
    · next h => rw [h]; omega
    · exact Nat.le_refl _
  quiet c h := by
    rw [changes_record] at h
    have hne : b ≠ c := by
      rintro rfl
      rw [if_pos rfl] at h
      omega
    exact ⟨by simp [hne], by simp [Ne.symm hne]⟩
  loud c h := by
    rw [changes_record] at h
    have heq : b = c := by
      by_contra hne
      rw [if_neg hne] at h
      omega
    simp [heq]

/-- Rewrites the slots of a block. -/
def setSlots (p : Pass V S) (b : BlockId) (slots : Slots S) : Pass V S :=
  { p with slots := p.slots.insert b slots }

@[simp]
theorem input?_setSlots (p : Pass V S) (b c : BlockId) (slots : Slots S) :
    (p.setSlots b slots).input? c = p.input? c := rfl

@[simp]
theorem changes_setSlots (p : Pass V S) (b c : BlockId) (slots : Slots S) :
    (p.setSlots b slots).changes c = p.changes c := rfl

@[simp]
theorem slotsOf_setSlots (p : Pass V S) (b c : BlockId) (slots : Slots S) :
    (p.setSlots b slots).slotsOf c = if b = c then slots else p.slotsOf c := by
  simp only [setSlots, slotsOf, Std.ExtTreeMap.getElem?_insert, Std.LawfulEqCmp.compare_eq_iff_eq]
  split <;> simp

/-- Rewriting the slots of a block is no change of its own. -/
theorem delivered_setSlots (p : Pass V S) (b : BlockId) (slots : Slots S) :
    Delivered p (p.setSlots b slots) where
  findings := rfl
  visits := rfl
  order := rfl
  sound := id
  changes_le _ := Nat.le_refl _
  quiet _ _ := ⟨rfl, Iff.rfl⟩
  loud _ h := absurd h (Nat.lt_irrefl _)

end Pass

/-! ## Single deliveries -/

namespace Setup

variable [Store S] [DecidableEq S] {s : Setup V S} {p p' : Pass V S} {b : BlockId}

/-- What a merge into an input does. -/
theorem merge_eq_ok {φ : Flow S} (h : s.merge b φ p = .ok p') :
    p.input? b = none ∧ p' = p.record b φ ∨
      ∃ old, p.input? b = some old ∧
        p' = if bound (s.widens p b) old φ = old then p
          else p.record b (bound (s.widens p b) old φ) := by
  unfold merge at h
  cases hold : p.findings.inputs[b]? with
  | none =>
    simp only [hold, Except.ok.injEq] at h
    exact .inl ⟨hold, h.symm⟩
  | some old =>
    simp only [hold] at h
    split at h
    · exact .inr ⟨old, hold, (Except.ok.inj h).symm⟩
    · cases h

/-- The store that a slot holds after a delivery. -/
def filled (widened : Bool) (old : Option S) (incoming : S) : S :=
  match old with
  | none => incoming
  | some old => bound widened old incoming

omit [Store S] in
theorem settle_eq (slots : Slots S) :
    settle b slots p =
      match slots.flow? with
      | none => p.setSlots b slots
      | some φ =>
        if p.input? b = some φ then p.setSlots b slots else (p.setSlots b slots).record b φ := by
  rcases slots with ⟨_ | t, _ | f⟩ <;> rfl

/-- What a merge into a slot does. -/
theorem mergeSlot_eq_ok {outcome : Bool} {x : S} (h : s.mergeSlot b outcome x p = .ok p') :
    p' = settle b
      ((p.slotsOf b).put outcome (filled (s.widens p b) ((p.slotsOf b).side outcome) x)) p := by
  unfold mergeSlot at h
  simp only at h
  have hside : (if outcome then (p.slots[b]?.getD {}).onTrue else (p.slots[b]?.getD {}).onFalse) =
      (p.slotsOf b).side outcome := rfl
  rw [hside] at h
  split at h
  · next merged hfill =>
    have hmerged : merged = filled (s.widens p b) ((p.slotsOf b).side outcome) x := by
      cases hold : (p.slotsOf b).side outcome with
      | none =>
        simp only [fill, hold] at hfill
        exact (Option.some.inj hfill).symm
      | some old =>
        simp only [fill, hold] at hfill
        split at hfill
        · exact (Option.some.inj hfill).symm
        · cases hfill
    rw [← hmerged, ← Except.ok.inj h]
    cases outcome <;> rfl
  · cases h

omit [Store S] in
theorem delivered_settle (b : BlockId) (slots : Slots S) (p : Pass V S) :
    p.Delivered (settle b slots p) := by
  have hslots := p.delivered_setSlots b slots
  rw [settle_eq]
  split
  · exact hslots
  · split
    · exact hslots
    · exact hslots.trans (Pass.delivered_record _ b _)

theorem delivered_of_deliver {parcel : Parcel S} (h : s.deliver b parcel p = .ok p') :
    p.Delivered p' := by
  cases parcel with
  | input φ =>
    rcases merge_eq_ok h with ⟨-, rfl⟩ | ⟨old, -, rfl⟩
    · exact p.delivered_record b φ
    · split
      · exact .refl p
      · exact p.delivered_record b _
  | slot outcome x =>
    rw [mergeSlot_eq_ok h]
    exact delivered_settle b _ p

/-- A delivery leaves every other block alone. -/
theorem changes_of_deliver {parcel : Parcel S} (h : s.deliver b parcel p = .ok p') {c : BlockId}
    (hc : c ≠ b) : p'.changes c = p.changes c ∧ p'.slotsOf c = p.slotsOf c := by
  cases parcel with
  | input φ =>
    rcases merge_eq_ok h with ⟨-, rfl⟩ | ⟨old, -, rfl⟩
    · simp [Ne.symm hc]
    · split
      · exact ⟨rfl, rfl⟩
      · simp [Ne.symm hc]
  | slot outcome x =>
    rw [mergeSlot_eq_ok h, settle_eq]
    split
    · simp [Ne.symm hc]
    · split <;> simp [Ne.symm hc]

/-- The slots of the block that a slot was delivered to. -/
theorem slotsOf_mergeSlot {outcome : Bool} {x : S} (h : s.mergeSlot b outcome x p = .ok p') :
    p'.slotsOf b =
      (p.slotsOf b).put outcome (filled (s.widens p b) ((p.slotsOf b).side outcome) x) := by
  rw [mergeSlot_eq_ok h, settle_eq]
  split
  · simp
  · split <;> simp

/-- After a delivery to a slot the input is the one that the slots amount to. -/
theorem matched_of_mergeSlot {outcome : Bool} {x : S} (h : s.mergeSlot b outcome x p = .ok p') :
    p'.Matched b := by
  unfold Pass.Matched
  rw [slotsOf_mergeSlot h, mergeSlot_eq_ok h, settle_eq]
  obtain ⟨φ, hφ⟩ := Option.isSome_iff_exists.mp (Slots.flow?_put_isSome (p.slotsOf b) outcome
    (filled (s.widens p b) ((p.slotsOf b).side outcome) x))
  rw [hφ]
  by_cases hinput : p.input? b = some φ
  · simp [hinput]
  · simp [hinput]

end Setup

/-! ## Absorption -/

/-- Does the parcel go into a slot? -/
def Parcel.isSlot : Parcel S → Bool
  | .input _ => false
  | .slot _ _ => true

/-- What a pass keeps for a block is at or above the parcel. -/
def Pass.Absorbed [Store S] (p : Pass V S) (b : BlockId) : Parcel S → Prop
  | .input φ => ∃ I, p.input? b = some I ∧ Below φ I
  | .slot outcome x => ∃ t, (p.slotsOf b).side outcome = some t ∧ Below x t

theorem Pass.absorbed_congr [Store S] {p p' : Pass V S} {b : BlockId} {parcel : Parcel S}
    (hinput : p'.input? b = p.input? b) (hslots : p'.slotsOf b = p.slotsOf b) :
    p'.Absorbed b parcel ↔ p.Absorbed b parcel := by
  cases parcel with
  | input φ => simp only [Absorbed, hinput]
  | slot outcome x => simp only [Absorbed, hslots]

namespace Setup

variable [Store S]

/-- Merges into the block are joins: it is no widening point, or stores do not widen. -/
def JoinsAt (s : Setup V S) (b : BlockId) : Prop :=
  s.wideningPoints.contains b = false ∨ PlainWidening S

theorem bound_eq_join {α : Type} [Store α] [LawfulJoin α] {widened : Bool}
    (h : widened = true → PlainWidening α) (old incoming : α) :
    bound widened old incoming = join old incoming := by
  cases widened with
  | false => rfl
  | true =>
    have := h rfl
    change widen old (join old incoming) = join old incoming
    rw [widen_eq, ← join_assoc, join_self]

variable [LawfulJoin S] {s : Setup V S} {p p' : Pass V S} {b c : BlockId}

omit [LawfulJoin S] in
theorem JoinsAt.plain (h : s.JoinsAt b) (hwidens : s.widens p b = true) : PlainWidening S := by
  rcases h with h | h
  · simp [widens, h] at hwidens
  · exact h

theorem JoinsAt.bound_store (h : s.JoinsAt b) (old incoming : S) :
    bound (s.widens p b) old incoming = join old incoming :=
  bound_eq_join (fun hw => h.plain hw) old incoming

theorem JoinsAt.bound_flow (h : s.JoinsAt b) (old incoming : Flow S) :
    bound (s.widens p b) old incoming = join old incoming :=
  bound_eq_join (fun hw => have := h.plain hw; inferInstance) old incoming

variable [DecidableEq S]

/-- What has been delivered is absorbed. -/
theorem absorbed_deliver {parcel : Parcel S} (hj : s.JoinsAt b)
    (h : s.deliver b parcel p = .ok p') : p'.Absorbed b parcel := by
  cases parcel with
  | input φ =>
    rcases merge_eq_ok h with ⟨-, rfl⟩ | ⟨old, hold, rfl⟩
    · exact ⟨φ, by simp, Below.refl φ⟩
    · rw [hj.bound_flow]
      split
      · next heq => exact ⟨old, hold, heq⟩
      · exact ⟨join old φ, by simp, Below.join_right old φ⟩
  | slot outcome x =>
    refine ⟨filled (s.widens p b) ((p.slotsOf b).side outcome) x, ?_, ?_⟩
    · rw [slotsOf_mergeSlot h, Slots.side_put, if_pos rfl]
    · cases (p.slotsOf b).side outcome with
      | none => exact Below.refl x
      | some old =>
        change Below x (bound (s.widens p b) old x)
        rw [hj.bound_store]
        exact Below.join_right old x

/-- What was absorbed stays absorbed. -/
theorem Absorbed.deliver {parcel other : Parcel S} (hj : s.JoinsAt c)
    (hkind : c = b → other.isSlot = parcel.isSlot) (ha : p.Absorbed c parcel)
    (h : s.deliver b other p = .ok p') : p'.Absorbed c parcel := by
  by_cases hcb : c = b
  · subst hcb
    cases parcel with
    | input φ =>
      obtain ⟨I, hI, hφ⟩ := ha
      cases other with
      -- a slot would settle the input anew, from the slots alone
      | slot _ _ => simp [Parcel.isSlot] at hkind
      | input ψ =>
        rcases merge_eq_ok h with ⟨hnone, -⟩ | ⟨old, hold, rfl⟩
        · simp [hI] at hnone
        · obtain rfl : I = old := by simpa [hI] using hold
          rw [hj.bound_flow]
          split
          · exact ⟨I, hI, hφ⟩
          · exact ⟨join I ψ, by simp, hφ.trans (Below.join_left I ψ)⟩
    | slot outcome x =>
      obtain ⟨t, ht, hx⟩ := ha
      cases other with
      | input _ => simp [Parcel.isSlot] at hkind
      | slot outcome' y =>
        simp only [Pass.Absorbed, slotsOf_mergeSlot h, Slots.side_put]
        split
        · next heq =>
          subst heq
          refine ⟨_, rfl, ?_⟩
          simp only [ht, filled, hj.bound_store]
          exact hx.trans (Below.join_left t y)
        · exact ⟨t, ht, hx⟩
  · obtain ⟨hchanges, hslots⟩ := changes_of_deliver h hcb
    exact (Pass.absorbed_congr ((delivered_of_deliver h).quiet c hchanges).1 hslots).mpr ha

/-- Delivering what is absorbed changes nothing. -/
theorem Absorbed.quiet {parcel : Parcel S} (hj : s.JoinsAt b)
    (hmatched : parcel.isSlot = true → p.Matched b) (ha : p.Absorbed b parcel)
    (h : s.deliver b parcel p = .ok p') : p'.changes b = p.changes b := by
  cases parcel with
  | input φ =>
    obtain ⟨I, hI, hφ⟩ := ha
    rcases merge_eq_ok h with ⟨hnone, -⟩ | ⟨old, hold, rfl⟩
    · simp [hI] at hnone
    · obtain rfl : I = old := by simpa [hI] using hold
      have hsame : join I φ = I := hφ
      rw [hj.bound_flow, if_pos hsame]
  | slot outcome x =>
    obtain ⟨t, ht, hx⟩ := ha
    have hfilled : filled (s.widens p b) (some t) x = t := by
      change bound (s.widens p b) t x = t
      rw [hj.bound_store]
      exact hx
    have hm : p.input? b = (p.slotsOf b).flow? := hmatched rfl
    -- the slots stay as they are, and the input is what they amount to already
    rw [mergeSlot_eq_ok h, ht, hfilled, Slots.put_of_side ht, settle_eq, ← hm]
    split
    · simp
    · next φ hφ => simp [hφ]

omit [Store S] [LawfulJoin S] [DecidableEq S] in
/-- A merge that is a join passes its check. -/
theorem holds_join {α : Type} [Store α] [LawfulJoin α] [DecidableEq α] (old incoming : α) :
    s.holds (join old incoming) old incoming = true := by
  simp only [holds, Bool.or_eq_true, Bool.and_eq_true, isUpperBound_iff]
  exact .inr ⟨Below.join_left old incoming, Below.join_right old incoming⟩

/-- A delivery whose merge is a join, or is not checked, never fails. -/
theorem exists_deliver (h : s.JoinsAt b ∨ s.settings.checkContracts = false) (parcel : Parcel S)
    (p : Pass V S) : ∃ p', s.deliver b parcel p = .ok p' := by
  have hflow : ∀ old incoming : Flow S,
      s.holds (bound (s.widens p b) old incoming) old incoming = true := by
    intro old incoming
    rcases h with hj | hunchecked
    · rw [hj.bound_flow]
      exact holds_join old incoming
    · simp [holds, hunchecked]
  have hstore : ∀ old incoming : S,
      s.holds (bound (s.widens p b) old incoming) old incoming = true := by
    intro old incoming
    rcases h with hj | hunchecked
    · rw [hj.bound_store]
      exact holds_join old incoming
    · simp [holds, hunchecked]
  cases parcel with
  | input φ =>
    change ∃ p', s.merge b φ p = .ok p'
    unfold merge
    cases p.findings.inputs[b]? with
    | none => exact ⟨_, rfl⟩
    | some old =>
      simp only [hflow, if_true]
      exact ⟨_, rfl⟩
  | slot outcome x =>
    change ∃ p', s.mergeSlot b outcome x p = .ok p'
    unfold mergeSlot
    have hfill : ∀ old : Option S, ∃ merged, s.fill (s.widens p b) old x = some merged := by
      intro old
      cases old with
      | none => exact ⟨x, rfl⟩
      | some old => exact ⟨bound (s.widens p b) old x, by simp only [fill, hstore, if_true]⟩
    obtain ⟨merged, hmerged⟩ := hfill
      (if outcome then (p.slots[b]?.getD {}).onTrue else (p.slots[b]?.getD {}).onFalse)
    simp only [hmerged]
    exact ⟨_, rfl⟩

end Setup

/-! ## Rows of deliveries -/

namespace Setup

/-- Does what reaches the block arrive in slots? -/
def slotted (s : Setup V S) (b : BlockId) : Bool :=
  s.analysis.direction = .backward && (s.graph.block? b).map Block.kind = some .conditional

/-- Every parcel goes into a slot exactly where slots are kept. -/
def Addressed (s : Setup V S) (parcels : List (BlockId × Parcel S)) : Prop :=
  ∀ e ∈ parcels, e.2.isSlot = s.slotted e.1

/-- Where slots are kept, the recorded input is the one they amount to. -/
def SlotsMatch (s : Setup V S) (p : Pass V S) : Prop :=
  ∀ b, s.slotted b = true → p.Matched b

variable [Store S] [DecidableEq S] {s : Setup V S} {p p' : Pass V S} {b c : BlockId}
  {parcels : List (BlockId × Parcel S)}

theorem SlotsMatch.deliver {parcel : Parcel S} (hm : s.SlotsMatch p)
    (hkind : parcel.isSlot = s.slotted b) (h : s.deliver b parcel p = .ok p') :
    s.SlotsMatch p' := by
  intro c hc
  by_cases hcb : c = b
  · subst hcb
    cases parcel with
    | input φ => simp [Parcel.isSlot, hc] at hkind
    | slot outcome x => exact matched_of_mergeSlot h
  · obtain ⟨hchanges, hslots⟩ := changes_of_deliver h hcb
    unfold Pass.Matched
    rw [((delivered_of_deliver h).quiet c hchanges).1, hslots]
    exact hm c hc

theorem deliverAll_cons {parcel : Parcel S} :
    s.deliverAll ((b, parcel) :: parcels) p = .ok p' ↔
      ∃ q, s.deliver b parcel p = .ok q ∧ s.deliverAll parcels q = .ok p' := by
  rw [deliverAll]
  cases s.deliver b parcel p <;> simp

theorem delivered_of_deliverAll (h : s.deliverAll parcels p = .ok p') : p.Delivered p' := by
  induction parcels generalizing p with
  | nil =>
    cases h
    exact .refl _
  | cons e parcels ih =>
    obtain ⟨q, hq, hrest⟩ := deliverAll_cons.mp h
    exact (delivered_of_deliver hq).trans (ih hrest)

theorem SlotsMatch.deliverAll (hm : s.SlotsMatch p) (ha : s.Addressed parcels)
    (h : s.deliverAll parcels p = .ok p') : s.SlotsMatch p' := by
  induction parcels generalizing p with
  | nil =>
    cases h
    exact hm
  | cons e parcels ih =>
    obtain ⟨q, hq, hrest⟩ := deliverAll_cons.mp h
    obtain ⟨he, hparcels⟩ := List.forall_mem_cons.mp ha
    exact ih (hm.deliver he hq) hparcels hrest

/-- A row of deliveries leaves alone what it does not reach. -/
theorem changes_of_deliverAll (h : s.deliverAll parcels p = .ok p')
    (hc : ∀ e ∈ parcels, e.1 ≠ c) : p'.changes c = p.changes c := by
  induction parcels generalizing p with
  | nil =>
    cases h
    rfl
  | cons e parcels ih =>
    obtain ⟨q, hq, hrest⟩ := deliverAll_cons.mp h
    obtain ⟨he, hparcels⟩ := List.forall_mem_cons.mp hc
    rw [ih hrest hparcels, (changes_of_deliver hq (Ne.symm he)).1]

variable [LawfulJoin S]

theorem Absorbed.deliverAll {parcel : Parcel S} (hj : s.JoinsAt c)
    (hkind : parcel.isSlot = s.slotted c) (haddr : s.Addressed parcels)
    (ha : p.Absorbed c parcel) (h : s.deliverAll parcels p = .ok p') : p'.Absorbed c parcel := by
  induction parcels generalizing p with
  | nil =>
    cases h
    exact ha
  | cons e parcels ih =>
    obtain ⟨q, hq, hrest⟩ := deliverAll_cons.mp h
    obtain ⟨he, hparcels⟩ := List.forall_mem_cons.mp haddr
    refine ih hparcels (Absorbed.deliver hj ?_ ha hq) hrest
    intro hce
    rw [hkind, he, hce]

/-- Every parcel of a row is absorbed in the end. -/
theorem absorbed_deliverAll (haddr : s.Addressed parcels)
    (h : s.deliverAll parcels p = .ok p') {e : BlockId × Parcel S} (he : e ∈ parcels)
    (hj : s.JoinsAt e.1) : p'.Absorbed e.1 e.2 := by
  induction parcels generalizing p with
  | nil => cases he
  | cons first parcels ih =>
    obtain ⟨q, hq, hrest⟩ := deliverAll_cons.mp h
    obtain ⟨hfirst, hparcels⟩ := List.forall_mem_cons.mp haddr
    rcases List.mem_cons.mp he with rfl | he
    · exact Absorbed.deliverAll hj hfirst hparcels (absorbed_deliver hj hq) hrest
    · exact ih hparcels hrest he

/-- A block that has absorbed what a row brings it does not change. -/
theorem quiet_deliverAll (hj : s.JoinsAt c) (hm : s.SlotsMatch p) (haddr : s.Addressed parcels)
    (ha : ∀ e ∈ parcels, e.1 = c → p.Absorbed c e.2) (h : s.deliverAll parcels p = .ok p') :
    p'.changes c = p.changes c := by
  induction parcels generalizing p with
  | nil =>
    cases h
    rfl
  | cons e parcels ih =>
    obtain ⟨q, hq, hrest⟩ := deliverAll_cons.mp h
    obtain ⟨he, hparcels⟩ := List.forall_mem_cons.mp haddr
    obtain ⟨hae, haparcels⟩ := List.forall_mem_cons.mp ha
    have hfirst : q.changes c = p.changes c := by
      by_cases hec : e.1 = c
      · subst hec
        exact Absorbed.quiet hj (fun hslot => hm _ (he ▸ hslot)) (hae rfl) hq
      · exact (changes_of_deliver hq (Ne.symm hec)).1
    rw [← hfirst]
    refine ih (hm.deliver he hq) hparcels ?_ hrest
    intro e' he' hec'
    refine Absorbed.deliver hj ?_ (haparcels e' he' hec') hq
    intro hce
    rw [he, hparcels e' he', hec', hce]

/-- Deliveries whose merges are joins, or are not checked, never fail. -/
theorem exists_deliverAll
    (h : ∀ e ∈ parcels, s.JoinsAt e.1 ∨ s.settings.checkContracts = false) (p : Pass V S) :
    ∃ p', s.deliverAll parcels p = .ok p' := by
  induction parcels generalizing p with
  | nil => exact ⟨p, rfl⟩
  | cons e parcels ih =>
    obtain ⟨he, hparcels⟩ := List.forall_mem_cons.mp h
    obtain ⟨q, hq⟩ := exists_deliver he e.2 p
    obtain ⟨p', hp'⟩ := ih hparcels q
    exact ⟨p', deliverAll_cons.mpr ⟨q, hq, hp'⟩⟩

end Setup

end FlowFixpoint
