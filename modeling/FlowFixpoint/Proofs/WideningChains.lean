/-
# FlowFixpoint.Proofs.WideningChains — the input of a widening point cannot change for ever.

Stores may have infinite height. What is asked of widening is that no store can be widened again and
again and change each time. From this a measure is built for the input of a widening point: first
the changes that are left before widening sets in, then the input itself. An input that is not there
yet comes before a single one and a single one before a split one; among inputs of one shape the
sides are compared, each by widening. Every delivery to a widening point leaves its input alone or
makes the measure smaller.
-/
import Mathlib.Order.WellFounded
import Mathlib.Order.OrderIsoNat
import FlowFixpoint.Proofs.Visits

namespace FlowFixpoint

variable {V S : Type} [Store S]

/-! ## Widening stores and flows -/

/-- The store `y` is a change of `x` that widening can make. -/
def WidensTo (y x : S) : Prop := (∃ c, y = widen x (join x c)) ∧ y ≠ x

/-- No sequence of stores is widened to a different store at every step. -/
def WideningSettles (S : Type) [Store S] : Prop :=
  ¬ ∃ x c : ℕ → S, ∀ i, x (i + 1) = widen (x i) (join (x i) (c i)) ∧ x (i + 1) ≠ x i

theorem WideningSettles.wellFounded (h : WideningSettles S) :
    WellFounded (WidensTo : S → S → Prop) := by
  rw [wellFounded_iff_isEmpty_descending_chain]
  refine ⟨fun ⟨x, hx⟩ => h ?_⟩
  choose c hc using fun i => (hx i).1
  exact ⟨x, c, fun i => ⟨hc i, (hx i).2⟩⟩

/-- The flow `ψ` is a change of `φ` that widening can make: a single flow is split, or a flow of the
same shape is widened on one side or on both. -/
def Flow.WidensTo (ψ φ : Flow S) : Prop :=
  ψ ≠ φ ∧ (φ.isSplit = false ∧ ψ.isSplit = true ∨
    ψ.isSplit = φ.isSplit ∧ ∀ outcome, ψ.side outcome = φ.side outcome ∨
      ∃ c, ψ.side outcome = widen (φ.side outcome) (join (φ.side outcome) c))

theorem WideningSettles.wellFounded_flow (h : WideningSettles S) :
    WellFounded (Flow.WidensTo : Flow S → Flow S → Prop) := by
  -- splitting comes first, then the side for `true`, then the side for `false`
  let measure (φ : Flow S) : ℕ × S × S := ((!φ.isSplit).toNat, φ.side true, φ.side false)
  refine Subrelation.wf ?_ (InvImage.wf measure
    (wellFounded_lt.prod_lex (h.wellFounded.prod_lex h.wellFounded)))
  rintro ψ φ ⟨hne, ⟨hφ, hψ⟩ | ⟨hshape, hsides⟩⟩
  · exact Prod.Lex.left _ _ (by simp [hφ, hψ])
  · change Prod.Lex _ _ (measure ψ) (measure φ)
    simp only [measure, hshape]
    refine Prod.Lex.right _ ?_
    rcases eq_or_ne (ψ.side true) (φ.side true) with htrue | htrue
    · rw [htrue]
      refine Prod.Lex.right _ ⟨(hsides false).resolve_left ?_, ?_⟩ <;>
      · intro hfalse
        refine hne (Flow.ext_side hshape fun outcome => ?_)
        cases outcome with
        | true => exact htrue
        | false => exact hfalse
    · exact Prod.Lex.left _ _ ⟨(hsides true).resolve_left htrue, htrue⟩

/-- An input after another: the first one, or a change that widening can make. -/
def InputWidensTo : Option (Flow S) → Option (Flow S) → Prop
  | some ψ, some φ => ψ.WidensTo φ
  | some _, none => True
  | none, _ => False

theorem WideningSettles.wellFounded_input (h : WideningSettles S) :
    WellFounded (InputWidensTo : Option (Flow S) → Option (Flow S) → Prop) := by
  have hsome : ∀ φ : Flow S, Acc InputWidensTo (some φ) := by
    intro φ
    induction φ using h.wellFounded_flow.induction with
    | _ φ ih =>
      refine .intro _ ?_
      rintro (_ | ψ) hψ
      · exact hψ.elim
      · exact ih ψ hψ
  refine ⟨fun input => ?_⟩
  cases input with
  | some φ => exact hsome φ
  | none =>
    refine .intro _ ?_
    rintro (_ | ψ) hψ
    · exact hψ.elim
    · exact hsome ψ

/-! ## The measure of a block -/

namespace Setup

/-- The changes left before widening sets in, and the input. -/
def gauge (s : Setup V S) (p : Pass V S) (b : BlockId) : ℕ × Option (Flow S) :=
  (s.settings.wideningThreshold - p.changes b, p.input? b)

/-- The order of measures. -/
def Drops : ℕ × Option (Flow S) → ℕ × Option (Flow S) → Prop :=
  Prod.Lex (· < ·) InputWidensTo

omit [Store S] in
theorem gauge_congr {s : Setup V S} {p p' : Pass V S} {b : BlockId}
    (hchanges : p'.changes b = p.changes b) (hinput : p'.input? b = p.input? b) :
    s.gauge p' b = s.gauge p b := by
  rw [gauge, gauge, hchanges, hinput]

end Setup

theorem WideningSettles.wellFounded_drops (h : WideningSettles S) :
    WellFounded (Setup.Drops : ℕ × Option (Flow S) → ℕ × Option (Flow S) → Prop) :=
  wellFounded_lt.prod_lex h.wellFounded_input

namespace Setup

variable {s : Setup V S} {p p' : Pass V S} {b : BlockId}

/-- A counted change makes the measure smaller, if what is recorded once widening has set in is what
widening can make of the input. -/
theorem drops_of_change (hpoint : s.wideningPoints.contains b = true)
    (hchanges : p'.changes b = p.changes b + 1)
    (hinput : s.widens p b = true → InputWidensTo (p'.input? b) (p.input? b)) :
    Drops (s.gauge p' b) (s.gauge p b) := by
  unfold gauge
  by_cases hreached : s.settings.wideningThreshold ≤ p.changes b
  · have hwidens : s.widens p b = true := by
      have hreached' : s.settings.wideningThreshold ≤ p.updates[b]?.getD 0 := hreached
      simp [widens, hpoint, hreached']
    have hsame : s.settings.wideningThreshold - p'.changes b =
        s.settings.wideningThreshold - p.changes b := by omega
    rw [hsame]
    exact Prod.Lex.right _ (hinput hwidens)
  · exact Prod.Lex.left _ _ (by omega)

/-- A merged flow that is different is a change that widening can make. -/
theorem widensTo_bound {old incoming : Flow S} (hne : bound true old incoming ≠ old) :
    (bound true old incoming).WidensTo old := by
  refine ⟨hne, ?_⟩
  have hside : ∀ outcome, (bound true old incoming).side outcome =
      widen (old.side outcome) (join (old.side outcome) (incoming.side outcome)) := by
    intro outcome
    change (Flow.combine widen old (join old incoming)).side outcome = _
    rw [Flow.side_combine, Flow.side_join]
  have hshape : (bound true old incoming).isSplit = (old.isSplit || incoming.isSplit) := by
    change (Flow.combine widen old (join old incoming)).isSplit = _
    rw [Flow.isSplit_combine, Flow.isSplit_join, ← Bool.or_assoc, Bool.or_self]
  cases hold : old.isSplit with
  | true => exact .inr ⟨by simp [hshape, hold], fun outcome => .inr ⟨_, hside outcome⟩⟩
  | false =>
    cases hincoming : incoming.isSplit with
    | true => exact .inl ⟨rfl, by simp [hshape, hincoming]⟩
    | false =>
      exact .inr ⟨by simp [hshape, hold, hincoming], fun outcome => .inr ⟨_, hside outcome⟩⟩

/-- So is the input after a delivery to a slot, if it is different. -/
theorem widensTo_put {slots : Slots S} {φ ψ : Flow S} {outcome : Bool} {x : S}
    (hφ : slots.flow? = some φ)
    (hψ : (slots.put outcome (filled true (slots.side outcome) x)).flow? = some ψ)
    (hne : ψ ≠ φ) : ψ.WidensTo φ := by
  refine ⟨hne, ?_⟩
  rcases slots with ⟨_ | t, _ | f⟩
  · simp [Slots.flow?] at hφ
  all_goals
    obtain rfl := Option.some.inj hφ
    cases outcome
    all_goals
      obtain rfl := Option.some.inj hψ
  -- only the slot for `false` is filled: its store is widened, or the other slot is filled too
  · exact .inr ⟨rfl, fun outcome => .inr ⟨x, by simp [filled, bound, Slots.side]⟩⟩
  · exact .inl ⟨rfl, rfl⟩
  -- only the slot for `true` is filled
  · exact .inl ⟨rfl, rfl⟩
  · exact .inr ⟨rfl, fun outcome => .inr ⟨x, by simp [filled, bound, Slots.side]⟩⟩
  -- both slots are filled, and one of them is widened
  · refine .inr ⟨rfl, fun outcome => ?_⟩
    cases outcome with
    | true => exact .inl rfl
    | false => exact .inr ⟨x, rfl⟩
  · refine .inr ⟨rfl, fun outcome => ?_⟩
    cases outcome with
    | true => exact .inr ⟨x, rfl⟩
    | false => exact .inl rfl

variable [DecidableEq S]

/-- A delivery to a widening point leaves its input alone or makes the measure smaller. -/
theorem drops_deliver (hpoint : s.wideningPoints.contains b = true) {parcel : Parcel S}
    (hmatched : parcel.isSlot = true → p.Matched b) (h : s.deliver b parcel p = .ok p') :
    p'.changes b = p.changes b ∨ Drops (s.gauge p' b) (s.gauge p b) := by
  cases parcel with
  | input φ =>
    rcases merge_eq_ok h with ⟨hnone, rfl⟩ | ⟨old, hold, rfl⟩
    · refine .inr (drops_of_change hpoint (by simp) fun _ => ?_)
      simp [hnone, InputWidensTo]
    · split
      · exact .inl rfl
      · next hne =>
        refine .inr (drops_of_change hpoint (by simp) fun hwidens => ?_)
        rw [hwidens] at hne
        simpa [hold, hwidens, InputWidensTo] using widensTo_bound hne
  | slot outcome x =>
    have hinput : p.input? b = (p.slotsOf b).flow? := hmatched rfl
    rw [mergeSlot_eq_ok h, settle_eq]
    split
    · exact .inl rfl
    · next ψ hψ =>
      split
      · exact .inl rfl
      · next hne =>
        refine .inr (drops_of_change hpoint (by simp) fun hwidens => ?_)
        rw [hwidens] at hψ
        cases hφ : (p.slotsOf b).flow? with
        | none => simp [hinput, hφ, InputWidensTo]
        | some φ =>
          have hdifferent : ψ ≠ φ := by
            rintro rfl
            exact hne (hinput.trans hφ)
          simpa [hinput, hφ, InputWidensTo] using widensTo_put hφ hψ hdifferent

variable {parcels : List (BlockId × Parcel S)}

/-- So does a row of deliveries. -/
theorem drops_deliverAll (hpoint : s.wideningPoints.contains b = true) (hm : s.SlotsMatch p)
    (haddr : s.Addressed parcels) (h : s.deliverAll parcels p = .ok p') :
    p'.changes b = p.changes b ∨ Relation.TransGen Drops (s.gauge p' b) (s.gauge p b) := by
  induction parcels generalizing p with
  | nil =>
    cases h
    exact .inl rfl
  | cons e parcels ih =>
    obtain ⟨q, hq, hrest⟩ := deliverAll_cons.mp h
    obtain ⟨he, hparcels⟩ := List.forall_mem_cons.mp haddr
    have hfirst : q.changes b = p.changes b ∨ Drops (s.gauge q b) (s.gauge p b) := by
      by_cases hb : b = e.1
      · subst hb
        exact drops_deliver hpoint (fun hslot => hm _ (he ▸ hslot)) hq
      · exact .inl (changes_of_deliver hq hb).1
    rcases hfirst with hsame | hdrop
    · -- the first delivery has not touched the block, so the rest starts from the same measure
      have hgauge : s.gauge q b = s.gauge p b :=
        gauge_congr hsame ((delivered_of_deliver hq).quiet b hsame).1
      rw [← hsame, ← hgauge]
      exact ih (hm.deliver he hq) hparcels hrest
    · rcases ih (hm.deliver he hq) hparcels hrest with hsame | hdrops
      · rw [gauge_congr hsame ((delivered_of_deliverAll hrest).quiet b hsame).1]
        exact .inr (.single hdrop)
      · exact .inr (hdrops.tail hdrop)

variable [DecidableEq V] {c : BlockId}

/-- A step leaves the input of a widening point alone or makes its measure smaller. -/
theorem Step.drops (hg : s.graph.WellFormed) (ho : s.Orderly p) (h : s.Step c p p')
    (hpoint : s.wideningPoints.contains b = true) :
    p'.changes b = p.changes b ∨ Relation.TransGen Drops (s.gauge p' b) (s.gauge p b) := by
  obtain ⟨input, pending, q, -, -, -, -, hq, rfl⟩ := h.spell hg ho
  have hdrops := drops_deliverAll hpoint (ho.slots.walked c input pending)
    (addressed_parcelsOf hg c _) hq
  simpa [gauge] using hdrops

end Setup

end FlowFixpoint
