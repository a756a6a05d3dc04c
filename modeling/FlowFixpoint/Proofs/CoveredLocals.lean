/-
# FlowFixpoint.Proofs.CoveredLocals — stores that account for the values of locals.

An analysis with an environment for its store says which values each of its abstract values allows.
A store covers the locals of an execution if every local that has a value is bound to something that
allows it. Abstract values allow more the higher they are, so a join covers what either side does,
and a read that takes unbound locals for unknown finds something that allows the local's value.
-/
import FlowFixpoint.Proofs.Executions
import FlowFixpoint.Proofs.JoinLaws

namespace FlowFixpoint

variable {V α : Type}

/-- Every local that has a value is bound to something that allows it. -/
def CoveredBy (allows : V → Datum α → Prop) (store : Env LocalVar V)
    (locals : LocalVar → Option (Datum α)) : Prop :=
  ∀ x v, locals x = some v → ∃ c, store.get? x = some c ∧ allows c v

/-- What an abstract value allows, everything above it allows too. -/
def Upward [Join V] (allows : V → Datum α → Prop) : Prop :=
  ∀ c d v, allows c v → Below c d → allows d v

namespace CoveredBy

variable {allows : V → Datum α → Prop} {store store' : Env LocalVar V}
  {locals locals' : LocalVar → Option (Datum α)} {x : LocalVar} {v : Datum α}

/-- Binding a local anew keeps covering if what it is bound to allows its value. -/
theorem set {c : V} (h : CoveredBy allows store locals) (hx : ∀ v, locals' x = some v → allows c v)
    (hother : ∀ y, y ≠ x → locals' y = locals y) : CoveredBy allows (store.set x c) locals' := by
  intro y v hv
  rw [Env.get?_set]
  by_cases hxy : x = y
  · subst hxy
    exact ⟨c, by simp, hx v hv⟩
  · rw [if_neg hxy]
    exact h y v (hother y (Ne.symm hxy) ▸ hv)

variable [Join V]

theorem mono (hup : Upward allows) (h : CoveredBy allows store locals)
    (hbelow : Below store store') : CoveredBy allows store' locals := by
  intro x v hv
  obtain ⟨c, hc, hallows⟩ := h x v hv
  obtain ⟨d, hd, hcd⟩ := Env.below_iff.mp hbelow x c hc
  exact ⟨d, hd, hup c d v hallows hcd⟩

variable [LawfulJoin V] [Describe V] {φ : Flow (Env LocalVar V)}

theorem regular (hup : Upward allows) {outcome : Bool}
    (h : CoveredBy allows (φ.side outcome) locals) : CoveredBy allows φ.regular locals :=
  h.mono hup (φ.side_below_regular outcome)

omit [Describe V] in
/-- What a read finds in the two stores of a flow allows the value, if their join covers it. -/
theorem read (hup : Upward allows) {unknown : V} (hunknown : ∀ v, allows unknown v)
    (h : CoveredBy allows φ.regular locals) (hv : locals x = some v) :
    allows (join ((φ.onTrue.get? x).getD unknown) ((φ.onFalse.get? x).getD unknown)) v := by
  obtain ⟨c, hc, hallows⟩ := h x v hv
  cases φ with
  | single store =>
    have hc' : store.get? x = some c := hc
    simp only [Flow.onTrue, Flow.onFalse, hc', Option.getD_some]
    exact hup _ _ v hallows (.join_left c c)
  | split t f =>
    simp only [Flow.regular, Env.get?_join] at hc
    simp only [Flow.onTrue, Flow.onFalse]
    cases ht : t.get? x with
    | none => exact hup _ _ v (hunknown v) (.join_left _ _)
    | some u =>
      cases hf : f.get? x with
      | none => exact hup _ _ v (hunknown v) (.join_right _ _)
      | some w =>
        rw [ht, hf] at hc
        obtain rfl := Option.some.inj hc
        exact hallows

end CoveredBy

end FlowFixpoint
