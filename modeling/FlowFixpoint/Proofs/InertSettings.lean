/-
# FlowFixpoint.Proofs.InertSettings — settings that make no difference.

Two of the three settings are there for stores that need them: the threshold of widening, and the
check that a merge is an upper bound. For a lawful join without a widening of its own neither can
show. Every merge comes out as the plain join, which passes its check, so a delivery is a function of
the state and the parcel alone: `receive`. From there on the settings are only carried along, and two
runs that differ in nothing else are equal step by step, in their results and in their failures.
-/
import FlowFixpoint.Analyses.Constants
import FlowFixpoint.Proofs.Visits

namespace FlowFixpoint

variable {V S : Type} [Store S] [DecidableEq S]

/-! ## Merging without settings -/

namespace Pass

/-- The state after a parcel has been joined into what is recorded for a block. -/
def receive (p : Pass V S) (b : BlockId) : Parcel S → Pass V S
  | .input φ =>
    match p.input? b with
    | none => p.record b φ
    | some old => if join old φ = old then p else p.record b (join old φ)
  | .slot outcome x =>
    Setup.settle b
      ((p.slotsOf b).put outcome (Setup.filled false ((p.slotsOf b).side outcome) x)) p

/-- The state after a row of parcels. -/
def receiveAll (p : Pass V S) (parcels : List (BlockId × Parcel S)) : Pass V S :=
  parcels.foldl (fun p e => p.receive e.1 e.2) p

end Pass

namespace Setup

variable [LawfulJoin S] [PlainWidening S] {s : Setup V S} {p : Pass V S} {b : BlockId}

/-- A delivery joins, whatever the settings. -/
theorem deliver_eq_receive (parcel : Parcel S) :
    s.deliver b parcel p = .ok (p.receive b parcel) := by
  have hj : s.JoinsAt b := .inr inferInstance
  obtain ⟨p', hp'⟩ := exists_deliver (.inl hj) parcel p
  rw [hp']
  congr 1
  cases parcel with
  | input φ =>
    rcases merge_eq_ok hp' with ⟨hnone, rfl⟩ | ⟨old, hold, rfl⟩
    · simp only [Pass.receive, hnone]
    · simp only [Pass.receive, hold, hj.bound_flow]
  | slot outcome x =>
    rw [mergeSlot_eq_ok hp', Pass.receive]
    congr 2
    cases (p.slotsOf b).side outcome with
    | none => rfl
    | some old => exact hj.bound_store old x

theorem deliverAll_eq_receiveAll (parcels : List (BlockId × Parcel S)) (p : Pass V S) :
    s.deliverAll parcels p = .ok (p.receiveAll parcels) := by
  induction parcels generalizing p with
  | nil => rfl
  | cons e parcels ih =>
    rw [deliverAll, deliver_eq_receive]
    exact ih (p.receive e.1 e.2)

/-! ## Visits and runs -/

variable [DecidableEq V]

/-- A visit does the same under all settings. -/
theorem visit_withSettings (settings : Settings) (b : BlockId) (p : Pass V S) :
    ({ s with settings } : Setup V S).visit b p = s.visit b p := by
  unfold visit
  simp only [deliverAll_eq_receiveAll]

/-- A run does the same under all settings with the same limit. -/
theorem run_withSettings (settings : Settings) (hlimit : settings.maxVisits = s.settings.maxVisits)
    (left : Nat) (p : Pass V S) :
    ({ s with settings } : Setup V S).run left p = s.run left p := by
  induction left generalizing p with
  | zero =>
    unfold run
    simp only [hlimit]
  | succ left ih =>
    cases hpop : p.pending.pop? with
    | none =>
      unfold run
      simp only [hpop]
    | some next =>
      rw [run_succ hpop, run_succ hpop, visit_withSettings]
      exact congrArg _ (funext ih)

/-- A visit never fails over a contract. -/
theorem visit_fault {failure : Failure V S} (h : s.visit b p = .error failure) :
    ∃ id, failure.fault = .stray id := by
  rcases visit_eq_error h with ⟨id, rfl⟩ | ⟨parcels, q, hfailure⟩
  · exact ⟨id, rfl⟩
  · rw [deliverAll_eq_receiveAll] at hfailure
    cases hfailure

/-- Nor does a run. -/
theorem run_fault_ne_contract {left : Nat} {failure : Failure V S}
    (h : s.run left p = .error failure) (c : BlockId) (details : String) :
    failure.fault ≠ .contract c details := by
  induction left generalizing p with
  | zero =>
    unfold run at h
    split at h
    · cases h
    · cases h
      simp
  | succ left ih =>
    cases hpop : p.pending.pop? with
    | none =>
      unfold run at h
      simp [hpop] at h
    | some next =>
      rw [run_succ hpop] at h
      cases hvisit : s.visit next.1 { p with pending := next.2, visits := p.visits + 1 } with
      | ok p' =>
        rw [hvisit] at h
        exact ih h
      | error first =>
        rw [hvisit] at h
        obtain ⟨id, hid⟩ := visit_fault hvisit
        cases h
        simp [hid]

end Setup

/-! ## Whole analyses -/

namespace Analysis

variable [DecidableEq V]

/-- Threshold and checks make no difference to an analysis, and no merge is ever refused. -/
structure Inert (a : Analysis V S) (g : Graph) : Prop where
  /-- Result and failure are the same, with the count of visits and all tables. -/
  same : ∀ (settings : Settings) (threshold : Nat) (check : Bool),
    a.solve { settings with wideningThreshold := threshold, checkContracts := check } g =
      a.solve settings g
  unrefused : ∀ (settings : Settings) (failure : Failure V S), a.solve settings g = .error failure →
    ∀ b details, failure.fault ≠ .contract b details

theorem inert [LawfulJoin S] [PlainWidening S] (a : Analysis V S) (g : Graph) : a.Inert g where
  same settings threshold check := by
    unfold solve prepare
    cases a.seeds g with
    | error id => rfl
    | ok seeds =>
      cases g.blockOrder a.direction with
      | error id => rfl
      | ok order =>
        cases g.wideningPoints a.direction with
        | error id => rfl
        | ok points =>
          exact Setup.run_withSettings (s := ⟨g, a, settings, points⟩)
            { settings with wideningThreshold := threshold, checkContracts := check } rfl
            settings.maxVisits _
  unrefused settings failure h b details := by
    unfold solve at h
    split at h
    · cases h
      simp
    · exact Setup.run_fault_ne_contract h b details

end Analysis

/-- The widening threshold and the contract checks make no difference to the shipped analyses. -/
theorem threshold_and_checks_are_inert (g : Graph) :
    Constants.analysis.Inert g ∧ Nullness.analysis.Inert g ∧ LiveLocals.analysis.Inert g :=
  ⟨Constants.analysis.inert g, Nullness.analysis.inert g, LiveLocals.analysis.inert g⟩

end FlowFixpoint
