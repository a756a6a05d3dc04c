/-
# FlowFixpoint.Proofs.Coverage — no update is lost.

In every state of a run, a block with an input is pending, or its last visit still covers it: that
visit started from the very input recorded now, what it sent is absorbed wherever merges are joins,
and neither its own nodes nor the nodes of blocks that flow straight into it have changed their
values since. Nothing is promised about values of blocks further away: a changed value makes only
the blocks reached next pending.
-/
import FlowFixpoint.Proofs.History

namespace FlowFixpoint.Setup

variable {V S : Type} [DecidableEq V] [Store S]

/-- The visit of a block that started from `q` still covers it in `p`. -/
structure Covered (s : Setup V S) (q p : Pass V S) (b : BlockId) (input : Flow S) : Prop where
  arrived : q.input? b = some input
  absorbed : ∀ e ∈ s.parcelsOf b (s.walkOf b q input).last, s.JoinsAt e.1 → p.Absorbed e.1 e.2
  /-- The values of the block and of those that flow into it are as the visit left them. -/
  values : ∀ c, c = b ∨ b ∈ s.reachedFrom c → ∀ n ∈ s.graph.nodesOf c,
    p.findings.values[n.id]? = (s.walkOf b q input).findings.values[n.id]?

variable [DecidableEq S] [LawfulJoin S] {s : Setup V S} {start q p p' : Pass V S}
  {b c : BlockId} {input : Flow S}

/-- The visit itself covers its block. -/
theorem covered_of_step (hg : s.graph.WellFormed) (ho : s.Orderly p) (h : s.Step b p p')
    (hinput : p.input? b = some input) : s.Covered p p' b input where
  arrived := hinput
  absorbed e he hj := h.absorbed hg ho hinput he hj
  values c _ n _ := by
    obtain ⟨input', hstep⟩ := h.stepped hg ho
    obtain rfl : input = input' := by simpa [hinput] using hstep.arrived
    rw [hstep.values]

/-- Visits of other blocks keep a block covered unless they make it pending. -/
theorem Covered.step (hg : s.graph.WellFormed) (ho : s.Orderly p) (h : s.Step c p p')
    (hcb : c ≠ b) (hsome : (p'.input? b).isSome) (hpending : ¬ p'.IsPending b)
    (hcovered : s.Covered q p b input) : s.Covered q p' b input where
  arrived := hcovered.arrived
  absorbed e he hj :=
    h.keeps_absorbed hg ho hj (addressed_parcelsOf hg b _ e he) (hcovered.absorbed e he hj)
  values d hd n hn := by
    obtain ⟨visited, hstep⟩ := h.stepped hg ho
    rw [← hcovered.values d hd n hn, hstep.values]
    by_cases hdc : d = c
    · -- the visited block flows into ours, which would be pending after a changed value
      subst hdc
      have hreached : b ∈ s.reachedFrom d := hd.resolve_left hcb
      have hchanged : (s.walkOf d p visited).changed = false := by
        by_contra hne
        exact hpending ((hstep.isPending b).mpr
          (.inr (.inr ⟨by simpa using hne, hreached, hsome⟩)))
      rw [(changed_walkOf hg).mp hchanged]
    · exact walkOf_values_of_ne p visited hg hn hdc

/-- In every state of a run, a block with an input is pending, or its last visit covers it and its
input has not changed since that visit began. -/
theorem covered_of_history (hs : s.Starts start) {visits : List (BlockId × Pass V S)}
    (h : s.History start visits p) : ∀ b input, p.input? b = some input →
      p.IsPending b ∨ ∃ q later, LastVisit visits b q later ∧ s.Covered q p b input ∧
        ∀ v ∈ (b, q) :: later, v.2.input? b = some input ∧ v.2.changes b = p.changes b := by
  have hg := hs.wellFormed
  induction h with
  | nil =>
    intro b input hinput
    have hstart := hs.started.isSome_input.mp (Option.isSome_iff_exists.mpr ⟨input, hinput⟩)
    exact .inl ((hs.started.isPending b).mpr hstart)
  | @concat visits p p' c hbefore hstep ih =>
    have horderly := hs.orderly_of_reached hbefore.reached
    obtain ⟨visited, hframe⟩ := hstep.stepped hg horderly
    intro b input hinput
    by_cases hpending : p'.IsPending b
    · exact .inl hpending
    right
    -- a block that is not pending has kept its input
    have hsame : p'.changes b = p.changes b := by
      by_contra hne
      have hle := hframe.changes_le b
      exact hpending ((hframe.isPending b).mpr (.inr (.inl (by omega))))
    have hinput' : p.input? b = some input := by rw [← hframe.quiet b hsame, hinput]
    by_cases hcb : c = b
    · subst hcb
      refine ⟨p, [], .self visits c p, covered_of_step hg horderly hstep hinput', ?_⟩
      simpa using ⟨hinput', hsame.symm⟩
    · rcases ih b input hinput' with hold | ⟨q, later, hlast, hcovered, hkept⟩
      · exact absurd ((hframe.isPending b).mpr (.inl ⟨Ne.symm hcb, hold⟩)) hpending
      · refine ⟨q, later ++ [(c, p)], hlast.concat hcb,
          hcovered.step hg horderly hstep hcb (by simp [hinput]) hpending, ?_⟩
        intro v hv
        rw [hsame]
        rw [← List.cons_append] at hv
        rcases List.mem_append.mp hv with hv | hv
        · exact hkept v hv
        · rw [List.mem_singleton.mp hv]
          exact ⟨hinput', rfl⟩

/-- In every state of a run, a block with an input is pending or covered by a visit of the run. -/
theorem covered_of_reached (hs : s.Starts start) (h : s.Reached start p) :
    ∀ b input, p.input? b = some input →
      p.IsPending b ∨ ∃ q, s.Reached start q ∧ s.Covered q p b input := by
  intro b input hinput
  obtain ⟨visits, hvisits⟩ := exists_history h
  rcases covered_of_history hs hvisits b input hinput with hpending | ⟨q, later, hlast, hcovered, -⟩
  · exact .inl hpending
  · obtain ⟨earlier, rfl⟩ := hlast.split
    exact .inr ⟨q, hvisits.reached_of_mem (b := b) (by simp), hcovered⟩

/-- What flow starts with stays absorbed. -/
theorem absorbed_seed (hs : s.Starts start) (h : s.Reached start p) {store : S}
    (hseed : (b, store) ∈ s.analysis.seedsOf s.graph) (hj : s.JoinsAt b) :
    p.Absorbed b (.input (.single store)) := by
  have hstart : b ∈ s.analysis.direction.starts s.graph :=
    s.analysis.seedsOf_fst s.graph ▸ List.mem_map.mpr ⟨_, hseed, rfl⟩
  obtain ⟨block, kind, hblock, hkind⟩ := hs.wellFormed.kind_of_starts hstart
  induction h with
  | refl => exact ⟨.single store, (hs.started.input b _).mpr ⟨store, hseed, rfl⟩, Below.refl _⟩
  | tail hbefore hstep ih =>
    obtain ⟨c, hstep⟩ := hstep
    refine hstep.keeps_absorbed hs.wellFormed (hs.orderly_of_reached hbefore) hj ?_ ih
    simp [Parcel.isSlot, slotted, hblock, hkind]

end FlowFixpoint.Setup

namespace FlowFixpoint.Analysis

variable {V S : Type} [DecidableEq V] [Store S] [DecidableEq S] [LawfulJoin S]
  {a : Analysis V S} {settings : Settings} {g : Graph}

/-- At the end of a successful analysis the last visit of every block with an input covers it. -/
theorem covered_of_solve (hg : g.WellFormed) {p : Pass V S} (h : a.solve settings g = .ok p) :
    ∃ s start, a.prepare settings g = .ok (s, start) ∧ s.Reached start p ∧
      ∀ b input, p.input? b = some input →
        ∃ q, s.Reached start q ∧ s.Covered q p b input := by
  obtain ⟨s, start, hprepare, hreached, hempty⟩ := solve_eq_ok hg h
  refine ⟨s, start, hprepare, hreached, ?_⟩
  intro b input hinput
  have hs := (starts_of_prepare hg hprepare).1
  exact (Setup.covered_of_reached hs hreached b input hinput).resolve_left (hempty b)

end FlowFixpoint.Analysis
