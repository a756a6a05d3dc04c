/-
# FlowFixpoint.Proofs.Termination — with widening every run ends.

For a lawful join, a widening that settles, and transfers that look at no recorded value, a run on
any graph ends after finitely many visits. No measure of the whole state falls with every visit, so
an endless run is followed instead, and from some visit on less and less of it can still move:

* the inputs of widening points stop changing, since their measure cannot fall for ever;
* then the inputs of the other blocks stop changing, in the order of their ranks: once everything
  that flows into a block stays the same, each block before it brings it something new at most once;
* then the values stop changing, since a block that is walked again from the same input writes the
  values that are already there;
* from then on a visited block does not become pending again, and the blocks run out.

The limit on visits does not change what a visit does, so that one bound serves every limit. The
contract check may end a run early; the bound is therefore taken over both of its settings.
-/
import Mathlib.Order.Filter.AtTopBot.Basic
import Mathlib.Order.Filter.Finite
import FlowFixpoint.Proofs.History
import FlowFixpoint.Proofs.WideningChains

namespace FlowFixpoint

open Filter

variable {V S : Type}

/-! ## Sequences -/

/-- What holds as long as a measure does not fall holds from some point on. -/
theorem eventually_of_falls {γ : Type} {r : γ → γ → Prop} (hwf : WellFounded r) {x : ℕ → γ}
    {P : ℕ → Prop} (h : ∀ i, P i ∧ x (i + 1) = x i ∨ r (x (i + 1)) (x i)) :
    ∀ᶠ i in atTop, P i := by
  obtain ⟨_, ⟨N, rfl⟩, hleast⟩ := hwf.has_min (Set.range x) ⟨x 0, 0, rfl⟩
  have hconstant : ∀ i, N ≤ i → x i = x N := by
    intro i hi
    induction i, hi using Nat.le_induction with
    | base => rfl
    | succ i hi ih =>
      rcases h i with ⟨-, hsame⟩ | hfalls
      · exact hsame.trans ih
      · exact absurd (ih ▸ hfalls) (hleast _ ⟨i + 1, rfl⟩)
  filter_upwards [eventually_ge_atTop N] with i hi
  rcases h i with ⟨hP, -⟩ | hfalls
  · exact hP
  · exact absurd (hconstant i hi ▸ hfalls) (hleast _ ⟨i + 1, rfl⟩)

/-- A sequence through finitely many values only comes back to values it has taken since any given
point. -/
theorem eventually_revisits {β : Type} {v : ℕ → β} {all : List β} (hv : ∀ i, v i ∈ all) (N : ℕ) :
    ∀ᶠ i in atTop, ∃ j, N ≤ j ∧ j < i ∧ v j = v i := by
  have hone : ∀ x ∈ {x | x ∈ all},
      ∀ᶠ i in atTop, v i = x → ∃ j, N ≤ j ∧ j < i ∧ v j = x := by
    intro x _
    by_cases hx : ∃ j, N ≤ j ∧ v j = x
    · obtain ⟨j, hj, hvj⟩ := hx
      filter_upwards [eventually_gt_atTop j] with i hi _
      exact ⟨j, hj, hi, hvj⟩
    · filter_upwards [eventually_ge_atTop N] with i hi hvi
      exact absurd ⟨i, hi, hvi⟩ hx
  filter_upwards [(eventually_all_finite all.finite_toSet).mpr hone] with i hi
  exact hi (v i) (hv i) rfl

/-! ## Transfers that look at no value -/

/-- What a node makes of the arriving flow does not depend on recorded values. -/
def Analysis.IgnoresValues (a : Analysis V S) : Prop :=
  ∀ (g : Graph) (values values' : Std.ExtTreeMap NodeId V) (replay : Bool) (n : Node) (φ : Flow S),
    a.transfer { graph := g, values, replay } n φ =
      a.transfer { graph := g, values := values', replay } n φ

namespace Walk

variable [DecidableEq V] {a : Analysis V S} (ha : a.IgnoresValues) (g : Graph) (input : Flow S)

include ha

/-- What a walk ends with is a matter of the arriving flow. -/
theorem through_last_congr (f f' : Findings V S) (ns : List Node) :
    (through g a f input ns).last = (through g a f' input ns).last := by
  induction ns using List.reverseRecOn with
  | nil => rfl
  | append_singleton ns n ih =>
    rw [through_concat, step_last, through_concat, step_last, ih]
    exact ha _ _ _ _ _ _

/-- So are the values that it writes for its nodes. -/
theorem exists_written (ns : List Node) : ∃ written : NodeId → Option V,
    (∀ m, (written m).isSome → ∃ n ∈ ns, n.id = m) ∧
      ∀ (f : Findings V S) (m : NodeId), (through g a f input ns).findings.values[m]? =
        (written m).or f.values[m]? := by
  induction ns using List.reverseRecOn with
  | nil => exact ⟨fun _ => none, by simp, fun f m => rfl⟩
  | append_singleton ns n ih =>
    obtain ⟨written, hnodes, hvalues⟩ := ih
    let last := (through g a {} input (ns ++ [n])).last
    refine ⟨fun m => if n.id = m then last.value.or (written m) else written m, ?_, ?_⟩
    · intro m hm
      by_cases hid : n.id = m
      · exact ⟨n, by simp, hid⟩
      · obtain ⟨k, hk, hkm⟩ := hnodes m (by simpa [hid] using hm)
        exact ⟨k, by simp [hk], hkm⟩
    · intro f m
      have hlast : ((through g a f input ns).step g a n).last = last := by
        rw [← through_concat]
        exact through_last_congr ha g input f {} _
      rw [through_concat, step_values, hvalues, hlast]
      by_cases hid : n.id = m
      · simp only [if_pos hid, Option.or_assoc]
      · simp only [if_neg hid]

end Walk

/-! ## Endless runs -/

namespace Setup

variable [Store S] [DecidableEq S] [DecidableEq V]

/-- A run that never ends: its states, and the block that each visit goes to. -/
structure Endless (s : Setup V S) (f : ℕ → Pass V S) (v : ℕ → BlockId) : Prop where
  starts : s.Starts (f 0)
  step : ∀ i, s.Step (v i) (f i) (f (i + 1))

/-- From some visit on the input of the block does not change. -/
def CalmsDown (f : ℕ → Pass V S) (c : BlockId) : Prop :=
  ∀ᶠ i in atTop, (f (i + 1)).changes c = (f i).changes c

/-- From some visit on no input changes. -/
def AllCalm (f : ℕ → Pass V S) : Prop :=
  ∀ᶠ i in atTop, ∀ c, (f (i + 1)).changes c = (f i).changes c

namespace Endless

variable {s : Setup V S} {f : ℕ → Pass V S} {v : ℕ → BlockId} (h : s.Endless f v)

include h

theorem reached (i : ℕ) : s.Reached (f 0) (f i) := by
  induction i with
  | zero => exact .refl
  | succ i ih => exact ih.tail ⟨v i, h.step i⟩

theorem orderly (i : ℕ) : s.Orderly (f i) := h.starts.orderly_of_reached (h.reached i)

theorem stepped (i : ℕ) : ∃ input, s.Stepped (v i) (f i) (f (i + 1)) input :=
  (h.step i).stepped h.starts.wellFormed (h.orderly i)

/-- Visits go to blocks of the graph. -/
theorem mem_blocks (i : ℕ) : v i ∈ s.graph.blocks.toList.map Block.id := by
  obtain ⟨input, hstep⟩ := h.stepped i
  obtain ⟨block, hblock⟩ := h.starts.block_of_input (h.reached i) (b := v i) (by
    simp [hstep.arrived])
  exact h.starts.wellFormed.mem_blockIds hblock

/-- An input that is not changed any more stays the same. -/
theorem input?_eq {c : BlockId} {N i j : ℕ}
    (hcalm : ∀ k, N ≤ k → (f (k + 1)).changes c = (f k).changes c) (hi : N ≤ i) (hj : N ≤ j) :
    (f i).input? c = (f j).input? c := by
  have hfirst : ∀ k, N ≤ k → (f k).input? c = (f N).input? c := by
    intro k hk
    induction k, hk using Nat.le_induction with
    | base => rfl
    | succ k hk ih =>
      obtain ⟨input, hstep⟩ := h.stepped k
      rw [hstep.quiet c (hcalm k hk), ih]
  rw [hfirst i hi, hfirst j hj]

/-- If every input stops changing, from some visit on all of them have. -/
theorem calm_everywhere (hcalm : ∀ c, CalmsDown f c) : AllCalm f := by
  have hblocks := (eventually_all_finite
    (s.graph.blocks.toList.map Block.id).finite_toSet).mpr fun c _ => hcalm c
  unfold AllCalm
  filter_upwards [hblocks] with i hi c
  obtain ⟨input, hstep⟩ := h.stepped i
  by_cases hreach : c ∈ s.reachedFrom (v i)
  · obtain ⟨e, he, -, rfl⟩ := exists_edge_of_reachedFrom h.starts.wellFormed hreach
    obtain ⟨block, hblock⟩ := h.starts.wellFormed.exists_block_head s.analysis.direction he
    exact hi _ (h.starts.wellFormed.mem_blockIds hblock)
  · exact hstep.elsewhere c hreach

/-- Inputs and values do not both come to rest: a visited block would not become pending again, and
the blocks would run out. -/
theorem not_at_rest (hcalm : AllCalm f) (hunchanged : ∀ᶠ i in atTop, ∀ input,
    (f i).input? (v i) = some input → (s.walkOf (v i) (f i) input).changed = false) : False := by
  obtain ⟨N, hN⟩ := eventually_atTop.mp (Eventually.and hcalm hunchanged)
  -- from here on a visit only takes its block off the list
  have hpending : ∀ i, N ≤ i → ∀ c, (f (i + 1)).IsPending c → c ≠ v i ∧ (f i).IsPending c := by
    intro i hi c hc
    obtain ⟨input, hstep⟩ := h.stepped i
    obtain ⟨hcalm, hunchanged⟩ := hN i hi
    rcases (hstep.isPending c).mp hc with hkept | hlt | ⟨hchanged, -, -⟩
    · exact hkept
    · exact absurd (hcalm c) (Nat.ne_of_gt hlt)
    · simp [hunchanged input hstep.arrived] at hchanged
  obtain ⟨i, j, hNj, hji, hvisit⟩ := (eventually_revisits h.mem_blocks N).exists
  have hgone : ∀ k, j < k → ¬ (f k).IsPending (v j) := by
    intro k hk
    induction k, hk using Nat.le_induction with
    | base => exact fun hc => (hpending j hNj _ hc).1 rfl
    | succ k hk ih => exact fun hc => ih (hpending k (by omega) _ hc).2
  obtain ⟨input, hstep⟩ := h.stepped i
  exact hgone i hji (hvisit ▸ hstep.pending)

/-- The input of a widening point stops changing. -/
theorem calmsDown_of_point (hsettles : WideningSettles S) {c : BlockId}
    (hpoint : s.wideningPoints.contains c = true) : CalmsDown f c := by
  refine eventually_of_falls hsettles.wellFounded_drops.transGen (x := fun i => s.gauge (f i) c) ?_
  intro i
  rcases (h.step i).drops h.starts.wellFormed (h.orderly i) hpoint with hsame | hdrops
  · obtain ⟨input, hstep⟩ := h.stepped i
    exact .inl ⟨hsame, gauge_congr hsame (hstep.quiet c hsame)⟩
  · exact .inr hdrops

/-- What a visit has written stays, as long as its block keeps its input: walking the block again
changes no value. -/
theorem walkOf_values_from (ha : s.analysis.IgnoresValues) {i k : ℕ} (hik : i < k) {input : Flow S}
    (hinput : ∀ k, i ≤ k → (f k).input? (v i) = some input) :
    (s.walkOf (v i) (f k) input).findings.values = (f k).findings.values := by
  obtain ⟨written, hnodes, hvalues⟩ := Walk.exists_written ha s.graph input
    (s.graph.passedNodes s.analysis.direction (v i))
  have hkept : ∀ m, (written m).or (f k).findings.values[m]? = (f k).findings.values[m]? := by
    intro m
    induction k, hik using Nat.le_induction with
    | base =>
      obtain ⟨input', hstep⟩ := h.stepped i
      obtain rfl : input = input' := by
        simpa [hinput i (Nat.le_refl i)] using hstep.arrived
      rw [hstep.values, walkOf, hvalues, ← Option.or_assoc, Option.or_self]
    | succ k hk ih =>
      obtain ⟨input', hstep⟩ := h.stepped k
      rw [hstep.values]
      cases hw : written m with
      | none => rfl
      | some x =>
        rw [hw, Option.some_or] at ih
        rw [Option.some_or]
        by_cases hvisit : v k = v i
        · obtain rfl : input = input' := by
            simpa [hvisit, hinput k (by omega)] using hstep.arrived
          rw [hvisit, walkOf, hvalues, hw, Option.some_or]
        · -- another block has been visited, which does not own the node
          obtain ⟨n, hn, rfl⟩ := hnodes m (by simp [hw])
          rw [walkOf_values_of_ne _ _ h.starts.wellFormed (Graph.mem_passedNodes.mp hn)
            (Ne.symm hvisit), ← ih]
  apply Std.ExtTreeMap.ext_getElem?
  intro m
  rw [walkOf, hvalues, hkept]

variable [LawfulJoin S]

/-- Where merges are joins, what a visit has brought stays absorbed. -/
theorem absorbed_from {i k : ℕ} (hik : i < k) {input : Flow S}
    (hinput : (f i).input? (v i) = some input) {e : BlockId × Parcel S}
    (he : e ∈ s.parcelsOf (v i) (s.walkOf (v i) (f i) input).last)
    (hpoint : s.wideningPoints.contains e.1 = false) : (f k).Absorbed e.1 e.2 := by
  have hg := h.starts.wellFormed
  induction k, hik using Nat.le_induction with
  | base => exact (h.step i).absorbed hg (h.orderly i) hinput he (.inl hpoint)
  | succ k hk ih =>
    exact (h.step k).keeps_absorbed hg (h.orderly k) (.inl hpoint)
      (addressed_parcelsOf hg _ _ e he) ih

variable (ha : s.analysis.IgnoresValues)

include ha

/-- The input of another block stops changing once the inputs of the blocks before it have. -/
theorem calmsDown_of_before {c : BlockId} (hpoint : s.wideningPoints.contains c = false)
    (hbefore : ∀ e ∈ s.graph.edges, s.analysis.direction.head e = c →
      (∃ i, ((f i).input? (s.analysis.direction.tail e)).isSome) →
        CalmsDown f (s.analysis.direction.tail e)) : CalmsDown f c := by
  let d := s.analysis.direction
  have hall : ∀ᶠ i in atTop, ∀ e ∈ {e | e ∈ s.graph.edges}, d.head e = c →
      (∃ i, ((f i).input? (d.tail e)).isSome) →
        (f (i + 1)).changes (d.tail e) = (f i).changes (d.tail e) := by
    rw [eventually_all_finite s.graph.edges.finite_toSet]
    intro e he
    by_cases hcond : d.head e = c ∧ ∃ i, ((f i).input? (d.tail e)).isSome
    · filter_upwards [hbefore e he hcond.1 hcond.2] with i hi _ _
      exact hi
    · exact .of_forall fun i hhead hinput => absurd ⟨hhead, hinput⟩ hcond
  obtain ⟨N, hN⟩ := eventually_atTop.mp hall
  filter_upwards [eventually_revisits h.mem_blocks N] with i ⟨j, hNj, hji, hvisit⟩
  obtain ⟨input, hstep⟩ := h.stepped i
  by_cases hreach : c ∈ s.reachedFrom (v i)
  · obtain ⟨e, he, htail, hhead⟩ := exists_edge_of_reachedFrom h.starts.wellFormed hreach
    have hcalm : ∀ k, N ≤ k → (f (k + 1)).changes (v i) = (f k).changes (v i) := by
      intro k hk
      rw [← htail]
      exact hN k hk e he hhead ⟨i, by simp [d, htail, hstep.arrived]⟩
    -- the earlier visit started from the same input, so it has sent the same parcels
    have hinput : (f j).input? (v j) = some input := by
      rw [hvisit, h.input?_eq hcalm hNj (by omega : N ≤ i), hstep.arrived]
    have hlast : (s.walkOf (v j) (f j) input).last = (s.walkOf (v i) (f i) input).last := by
      rw [hvisit]
      exact Walk.through_last_congr ha _ _ _ _ _
    refine (h.step i).quiet_of_absorbed h.starts.wellFormed (h.orderly i) hstep.arrived
      (.inl hpoint) ?_
    rintro e hparcel rfl
    rw [← hlast, ← hvisit] at hparcel
    exact h.absorbed_from hji hinput hparcel hpoint
  · exact hstep.elsewhere c hreach

/-- Every input stops changing. -/
theorem calmsDown (hsettles : WideningSettles S) {finished : List BlockId}
    (hranks : s.graph.Ranks s.analysis.direction s.wideningPoints finished) (c : BlockId) :
    CalmsDown f c := by
  induction hrank : finished.idxOf c using Nat.strong_induction_on generalizing c with
  | _ rank ih =>
    subst hrank
    cases hpoint : s.wideningPoints.contains c with
    | true => exact h.calmsDown_of_point hsettles hpoint
    | false =>
      refine h.calmsDown_of_before ha hpoint ?_
      rintro e he rfl ⟨i, hinput⟩
      have htail := h.starts.holds_of_input (h.reached i) hranks.starts hranks.closed hinput
      exact ih _ (hranks.rises e he htail hpoint) _ rfl

/-- All inputs stop changing. -/
theorem all_calm (hsettles : WideningSettles S) {finished : List BlockId}
    (hranks : s.graph.Ranks s.analysis.direction s.wideningPoints finished) : AllCalm f :=
  h.calm_everywhere (h.calmsDown ha hsettles hranks)

/-- From some visit on no value changes either. -/
theorem unchanged (hsettles : WideningSettles S) {finished : List BlockId}
    (hranks : s.graph.Ranks s.analysis.direction s.wideningPoints finished) :
    ∀ᶠ i in atTop, ∀ input, (f i).input? (v i) = some input →
      (s.walkOf (v i) (f i) input).changed = false := by
  obtain ⟨N, hN⟩ := eventually_atTop.mp (h.all_calm ha hsettles hranks)
  filter_upwards [eventually_revisits h.mem_blocks N] with i ⟨j, hNj, hji, hvisit⟩ input hinput
  have hsame : ∀ k, j ≤ k → (f k).input? (v j) = some input := by
    intro k hk
    rw [hvisit, h.input?_eq (fun k hk => hN k hk (v i)) (by omega : N ≤ k) (by omega : N ≤ i),
      hinput]
  have hvalues := h.walkOf_values_from ha hji hsame
  rw [hvisit] at hvalues
  exact (changed_walkOf h.starts.wellFormed).mpr hvalues

end Endless

/-- There is no endless run. -/
theorem not_endless [LawfulJoin S] {s : Setup V S} (ha : s.analysis.IgnoresValues)
    (hsettles : WideningSettles S) {finished : List BlockId}
    (hranks : s.graph.Ranks s.analysis.direction s.wideningPoints finished) (f : ℕ → Pass V S)
    (v : ℕ → BlockId) : ¬ s.Endless f v := fun h =>
  h.not_at_rest (h.all_calm ha hsettles hranks) (h.unchanged ha hsettles hranks)

end Setup

/-! ## Runs that end -/

/-- The run was given up because its visits were used up. -/
def Fault.OutOfVisits (fault : Fault) : Prop :=
  ∃ limit, fault = .malformed (.nonTermination limit)

namespace Setup

variable [Store S] [DecidableEq S]

/-- The same set-up with another limit on visits. -/
def withLimit (s : Setup V S) (limit : ℕ) : Setup V S :=
  { s with settings := { s.settings with maxVisits := limit } }

variable {s : Setup V S} {p : Pass V S} {b : BlockId} {failure : Failure V S}

theorem deliverAll_withLimit (limit : ℕ) (parcels : List (BlockId × Parcel S)) (p : Pass V S) :
    (s.withLimit limit).deliverAll parcels p = s.deliverAll parcels p := by
  induction parcels generalizing p with
  | nil => rfl
  | cons e parcels ih =>
    rw [deliverAll, deliverAll]
    simp only [ih]
    rfl

/-- A delivery fails at its contract only. -/
theorem fault_of_deliver {parcel : Parcel S} (h : s.deliver b parcel p = .error failure) :
    ¬ failure.fault.OutOfVisits := by
  cases parcel with
  | input φ =>
    change s.merge b φ p = .error failure at h
    unfold merge at h
    split at h
    · cases h
    · simp only at h
      split at h
      · cases h
      · cases h
        simp [Fault.OutOfVisits]
  | slot outcome x =>
    change s.mergeSlot b outcome x p = .error failure at h
    unfold mergeSlot at h
    simp only at h
    split at h
    · cases h
    · cases h
      simp [Fault.OutOfVisits]

theorem fault_of_deliverAll {parcels : List (BlockId × Parcel S)}
    (h : s.deliverAll parcels p = .error failure) : ¬ failure.fault.OutOfVisits := by
  induction parcels generalizing p with
  | nil => cases h
  | cons e parcels ih =>
    rw [deliverAll] at h
    cases hdeliver : s.deliver e.1 e.2 p with
    | ok q =>
      rw [hdeliver] at h
      exact ih h
    | error failure' =>
      rw [hdeliver] at h
      cases h
      exact fault_of_deliver hdeliver

variable [DecidableEq V]

/-- The limit does not change what a visit does. -/
theorem visit_withLimit (limit : ℕ) (b : BlockId) (p : Pass V S) :
    (s.withLimit limit).visit b p = s.visit b p := by
  unfold visit
  simp only [deliverAll_withLimit]
  rfl

/-- No visit fails because the visits are used up. -/
theorem fault_of_visit (h : s.visit b p = .error failure) : ¬ failure.fault.OutOfVisits := by
  rcases visit_eq_error h with ⟨id, rfl⟩ | ⟨parcels, q, hfailure⟩
  · simp [Fault.OutOfVisits]
  · exact fault_of_deliverAll hfailure

/-- A run from a state without endless runs gets by with some number of visits. -/
theorem exists_enough (hacc : Acc (fun p' p => ∃ b, s.Step b p p') p) :
    ∃ enough, ∀ limit left, enough ≤ left → ∀ failure,
      (s.withLimit limit).run left p = .error failure → ¬ failure.fault.OutOfVisits := by
  induction hacc with
  | intro p _ ih =>
    cases hpop : p.pending.pop? with
    | none =>
      refine ⟨0, fun limit left _ failure hfailure => ?_⟩
      unfold run at hfailure
      simp [hpop] at hfailure
    | some next =>
      obtain ⟨b, pending⟩ := next
      cases hvisit : s.visit b { p with pending, visits := p.visits + 1 } with
      | error first =>
        refine ⟨1, fun limit left hleft failure hfailure => ?_⟩
        obtain ⟨left, rfl⟩ := Nat.exists_eq_add_of_le' hleft
        rw [run_succ hpop, visit_withLimit, hvisit] at hfailure
        cases hfailure
        exact fault_of_visit hvisit
      | ok p' =>
        obtain ⟨enough, henough⟩ := ih p' ⟨b, pending, hpop, hvisit⟩
        refine ⟨enough + 1, fun limit left hleft failure hfailure => ?_⟩
        obtain ⟨left, rfl⟩ := Nat.exists_eq_add_of_le' (Nat.le_trans (Nat.le_add_left 1 _) hleft)
        rw [run_succ hpop, visit_withLimit, hvisit] at hfailure
        exact henough limit left (by omega) failure hfailure

end Setup

namespace Setup

variable [Store S] [DecidableEq S] [DecidableEq V] {s : Setup V S} {start p : Pass V S}

/-- Where there is no endless run, some number of visits is enough. -/
theorem exists_enough_of_not_endless (hs : s.Starts start) (h : ∀ f v, ¬ s.Endless f v) :
    ∃ enough, ∀ limit left, enough ≤ left → ∀ failure,
      (s.withLimit limit).run left start = .error failure → ¬ failure.fault.OutOfVisits := by
  apply exists_enough
  by_contra hacc
  obtain ⟨f, rfl, hchain⟩ := not_acc_iff_exists_descending_chain.mp hacc
  choose v hv using hchain
  exact h f v ⟨hs, hv⟩

variable [LawfulJoin S]

/-- Without contract checks a run fails only because its visits are used up. -/
theorem outOfVisits_of_run (hs : s.Starts start) (hunchecked : s.settings.checkContracts = false)
    {left : ℕ} (hp : s.Reached start p) {failure : Failure V S}
    (h : s.run left p = .error failure) : failure.fault.OutOfVisits := by
  obtain ⟨q, b, pending, -, -, rfl⟩ := hs.failure_of_run (fun _ => .inr hunchecked) hp h
  exact ⟨_, rfl⟩

end Setup

namespace Analysis

variable {a : Analysis V S} {g : Graph}

variable [Store S] [DecidableEq S] [DecidableEq V] [LawfulJoin S]

/-- For one choice of settings, some number of visits is enough whatever the limit is. -/
theorem exists_enough_of_prepare (hsettles : WideningSettles S) (ha : a.IgnoresValues)
    (hg : g.WellFormed) {settings : Settings} {start : Pass V S}
    (h : a.prepare settings g = .ok (⟨g, a, settings, g.pointsOf a.direction⟩, start)) :
    ∃ enough, ∀ limit left, enough ≤ left → ∀ failure,
      (Setup.withLimit ⟨g, a, settings, g.pointsOf a.direction⟩ limit).run left start =
        .error failure → ¬ failure.fault.OutOfVisits := by
  obtain ⟨hs, -⟩ := starts_of_prepare hg h
  exact Setup.exists_enough_of_not_endless hs
    (Setup.not_endless ha hsettles (hg.ranks_finishedOf a.direction))

end Analysis

/-- With widening every analysis that looks at no recorded value ends: on every graph, in either
direction and for every threshold there is a number of visits that is enough. Without contract
checks, which may refuse what widening makes of a store, there is a result then. Equality on values
and stores is lawful, as is asked of them: `DecidableEq` decides whether two are the same, and a store
that differed from its own copy would count as changed for ever. -/
theorem widening_forces_termination [Store S] [DecidableEq S] [DecidableEq V] [LawfulJoin S]
    (hsettles : WideningSettles S) (a : Analysis V S) (ha : a.IgnoresValues) (g : Graph)
    (hg : g.Built) (threshold : ℕ) :
    ∃ enough, ∀ settings : Settings, settings.wideningThreshold = threshold →
      enough ≤ settings.maxVisits →
        (∀ failure, a.solve settings g = .error failure → ¬ failure.fault.OutOfVisits) ∧
          (settings.checkContracts = false → ∃ p, a.solve settings g = .ok p) := by
  have hwf := hg.wellFormed
  obtain ⟨start, hprepare⟩ := a.exists_prepare hwf
  -- the limit does not matter to a visit, but the contract check does: each setting has its bound
  choose enough henough using fun check =>
    a.exists_enough_of_prepare hsettles ha hwf (hprepare ⟨threshold, 0, check⟩)
  refine ⟨max (enough true) (enough false), ?_⟩
  rintro ⟨threshold, limit, check⟩ rfl hlimit
  have hsolve : a.solve ⟨threshold, limit, check⟩ g =
      (Setup.withLimit ⟨g, a, ⟨threshold, 0, check⟩, g.pointsOf a.direction⟩ limit).run limit
        start := by
    rw [Analysis.solve, hprepare]
    rfl
  have hnever : ∀ failure, a.solve ⟨threshold, limit, check⟩ g = .error failure →
      ¬ failure.fault.OutOfVisits := by
    intro failure hfailure
    refine henough check limit limit ?_ failure (hsolve ▸ hfailure)
    exact Nat.le_trans (by cases check <;> simp) hlimit
  refine ⟨hnever, fun hunchecked => ?_⟩
  cases hresult : a.solve ⟨threshold, limit, check⟩ g with
  | ok p => exact ⟨p, rfl⟩
  | error failure =>
    obtain ⟨hs, -⟩ := Analysis.starts_of_prepare hwf (hprepare ⟨threshold, limit, check⟩)
    exact absurd (Setup.outOfVisits_of_run hs hunchecked .refl (hsolve ▸ hresult))
      (hnever failure hresult)

/-! ## Counting round a loop -/

/-- A bound on a count. -/
inductive Ceiling where
  | atMost (count : ℕ)
  | unbounded
deriving DecidableEq

namespace Ceiling

/-- The higher of two bounds. -/
def higher : Ceiling → Ceiling → Ceiling
  | atMost m, atMost n => atMost (Nat.max m n)
  | _, _ => unbounded

/-- The bound for one more. -/
def next : Ceiling → Ceiling
  | atMost n => atMost (n + 1)
  | unbounded => unbounded

instance : Join Ceiling := ⟨higher⟩

instance : Describe Ceiling where
  describe
    | atMost n => describe n
    | unbounded => "unbounded"

/-- Widening gives up a bound that has moved. -/
instance : Store Ceiling where
  widen old next := if next = old then old else unbounded

instance : LawfulJoin Ceiling where
  join_assoc a b c := by
    cases a <;> cases b <;> cases c <;> simp only [join, higher]
    exact congrArg atMost (Nat.max_assoc _ _ _)
  join_comm a b := by
    cases a <;> cases b <;> simp only [join, higher]
    exact congrArg atMost (Nat.max_comm _ _)
  join_self a := by
    cases a <;> simp only [join, higher]
    exact congrArg atMost (Nat.max_self _)

/-- The second widening never changes anything. -/
theorem wideningSettles : WideningSettles Ceiling := by
  rintro ⟨x, c, h⟩
  have hwiden : ∀ i, x (i + 1) = unbounded := by
    intro i
    obtain ⟨hstep, hne⟩ := h i
    rw [hstep] at hne ⊢
    change (if _ then _ else _) ≠ _ at hne
    change (if _ then _ else _) = _
    split
    · next heq => simp [heq] at hne
    · rfl
  exact (h 1).2 (by rw [hwiden 1, hwiden 0])

/-- Counts the markers passed. -/
def counting : Analysis Ceiling Ceiling where
  boundary := .forward fun _ => atMost 0
  transfer _ n flow :=
    match n.kind with
    | .marker _ => .single (some flow.regular.next) flow.regular.next
    | _ => .pass flow

theorem counting_ignoresValues : counting.IgnoresValues := fun _ _ _ _ _ _ => rfl

end Ceiling

/-- A loop of blocks 4, 5 and 6 that is entered at block 4 and at block 5. -/
def irreducibleLoop : Graph :=
  .ofSteps (.loose "")
    [.addBlock .conditional, .addBlock .regular, .addBlock .regular, .addBlock .conditional,
      .push ⟨0, 4⟩ (.marker "a"), .push ⟨0, 5⟩ (.marker "b"),
      .addEdge ⟨0, 0⟩ ⟨0, 3⟩ .unconditional, .addEdge ⟨0, 3⟩ ⟨0, 4⟩ .onTrue,
      .addEdge ⟨0, 3⟩ ⟨0, 5⟩ .onFalse, .addEdge ⟨0, 4⟩ ⟨0, 5⟩ .unconditional,
      .addEdge ⟨0, 5⟩ ⟨0, 6⟩ .unconditional, .addEdge ⟨0, 6⟩ ⟨0, 4⟩ .onTrue,
      .addEdge ⟨0, 6⟩ ⟨0, 1⟩ .onFalse]

theorem irreducibleLoop_built : irreducibleLoop.Built := Graph.built_ofSteps (by decide +kernel)

/-- Counting round an irreducible loop ends, although every round has a higher count. -/
theorem irreducibleLoop_terminates :
    WideningSettles Ceiling ∧ Ceiling.counting.IgnoresValues ∧ irreducibleLoop.Built ∧
      ∃ enough, ∀ settings : Settings, settings.wideningThreshold = 3 →
        enough ≤ settings.maxVisits →
          (∀ failure, Ceiling.counting.solve settings irreducibleLoop = .error failure →
            ¬ failure.fault.OutOfVisits) ∧
          (settings.checkContracts = false →
            ∃ p, Ceiling.counting.solve settings irreducibleLoop = .ok p) :=
  ⟨Ceiling.wideningSettles, Ceiling.counting_ignoresValues, irreducibleLoop_built,
    widening_forces_termination Ceiling.wideningSettles Ceiling.counting
      Ceiling.counting_ignoresValues irreducibleLoop irreducibleLoop_built 3⟩

end FlowFixpoint
