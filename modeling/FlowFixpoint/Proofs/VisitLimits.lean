/-
# FlowFixpoint.Proofs.VisitLimits — the limit on visits only cuts a run off.

A run is determined by its history: the limit decides how much of the history is made, and nothing
else. A run that succeeds has made all visits there are to make, at most as many as it was allowed. A
run that is given up has made exactly as many as it was allowed, and stands where every run with a
higher limit stands after so many visits. The visit that would be one too many is counted, and its
block is taken off the list, but no table is touched.

`History` does not mention the limit, so histories of set-ups that differ in the limit are the same;
`run_eq_ok_iff` and `Starts.history_of_failure` read a run off its history.
-/
import FlowFixpoint.Proofs.StaleReads
import FlowFixpoint.Proofs.Termination

namespace FlowFixpoint

variable {V S : Type} [Store S] [DecidableEq S] [DecidableEq V]

namespace Setup

variable {s : Setup V S} {start p p' : Pass V S} {visits : List (BlockId × Pass V S)} {left : ℕ}

/-! ## Histories of runs -/

/-- The limit does not show in a history. -/
theorem History.withLimit (h : s.History start visits p) (limit : ℕ) :
    (s.withLimit limit).History start visits p := by
  induction h with
  | nil => exact .nil
  | concat _ hstep ih =>
    obtain ⟨pending, hpop, hvisit⟩ := hstep
    exact ih.concat ⟨pending, hpop, (visit_withLimit limit _ _).trans hvisit⟩

/-- A run that succeeds goes on with the history until nothing is pending. -/
theorem History.of_run (h : s.History start visits p) (hrun : s.run left p = .ok p') :
    ∃ more, s.History start (visits ++ more) p' ∧ more.length ≤ left ∧ p'.pending.pop? = none := by
  induction left generalizing p visits with
  | zero =>
    unfold run at hrun
    split at hrun
    · next hnone =>
      cases hrun
      exact ⟨[], by rwa [List.append_nil], Nat.le_refl 0, hnone⟩
    · cases hrun
  | succ left ih =>
    cases hpop : p.pending.pop? with
    | none =>
      unfold run at hrun
      simp only [hpop] at hrun
      cases hrun
      exact ⟨[], by rwa [List.append_nil], Nat.zero_le _, hpop⟩
    | some next =>
      rw [run_succ hpop] at hrun
      cases hvisit : s.visit next.1 { p with pending := next.2, visits := p.visits + 1 } with
      | error failure =>
        rw [hvisit] at hrun
        cases hrun
      | ok q =>
        rw [hvisit] at hrun
        obtain ⟨more, hmore, hlength, hnone⟩ := ih (h.concat ⟨next.2, hpop, hvisit⟩) hrun
        refine ⟨(next.1, p) :: more, by rwa [List.append_assoc] at hmore, ?_, hnone⟩
        rw [List.length_cons]
        omega

/-- A run succeeds exactly if the visits it is allowed are enough to leave nothing pending. -/
theorem run_eq_ok_iff : s.run left start = .ok p ↔
    ∃ visits, s.History start visits p ∧ visits.length ≤ left ∧ p.pending.pop? = none := by
  constructor
  · intro hrun
    exact History.nil.of_run hrun
  · rintro ⟨visits, hvisits, hlength, hnone⟩
    obtain ⟨spare, rfl⟩ := Nat.exists_eq_add_of_le hlength
    rw [hvisits.run_eq, run, hnone]

/-- Where no merge can fail, a run that is given up has made all the visits it is allowed. -/
theorem Starts.history_of_failure [LawfulJoin S] [PlainWidening S] (hs : s.Starts start)
    {failure : Failure V S} (h : s.History start visits p) (hrun : s.run left p = .error failure) :
    ∃ more q b pending, s.History start (visits ++ more) q ∧ more.length = left ∧
      failure = {
        fault := .malformed (.nonTermination s.settings.maxVisits)
        pass := { q with pending, visits := q.visits + 1 } } ∧
      q.pending.pop? = some (b, pending) := by
  induction left generalizing p visits with
  | zero =>
    unfold run at hrun
    split at hrun
    · cases hrun
    · next b pending hpop =>
      exact ⟨[], p, b, pending, by rwa [List.append_nil], rfl, (Except.error.inj hrun).symm, hpop⟩
  | succ left ih =>
    cases hpop : p.pending.pop? with
    | none =>
      unfold run at hrun
      simp [hpop] at hrun
    | some next =>
      obtain ⟨q, hvisit⟩ := hs.exists_visit h.reached (fun _ => .inl (.inr inferInstance)) hpop
      rw [run_succ hpop, hvisit] at hrun
      obtain ⟨more, stop, b, pending, hmore, hlength, hfailure, hnext⟩ :=
        ih (h.concat ⟨next.2, hpop, hvisit⟩) hrun
      refine ⟨(next.1, p) :: more, stop, b, pending, ?_, ?_, hfailure, hnext⟩
      · rwa [List.append_assoc] at hmore
      · rw [List.length_cons, hlength]

end Setup

/-! ## Two limits -/

namespace Analysis

/-- The run with these settings makes at least so many visits, and after them these are its tables:
its history leads to a state with the tables, and from that state it goes on with the visits left. -/
def FindsAfter (a : Analysis V S) (settings : Settings) (g : Graph) (count : ℕ)
    (findings : Findings V S) : Prop :=
  ∃ s start visits q, a.prepare settings g = .ok (s, start) ∧ s.History start visits q ∧
    visits.length = count ∧ q.findings = findings ∧
    count ≤ settings.maxVisits ∧ a.solve settings g = s.run (settings.maxVisits - count) q

/-- Of two limits the lower one only cuts the run off. -/
structure CutsOff (a : Analysis V S) (settings : Settings) (g : Graph) (limit higher : ℕ) :
    Prop where
  /-- A run that succeeds stays within its limit and is the same under the higher one, with the count
  of visits and all tables. -/
  kept : ∀ p, a.solve { settings with maxVisits := limit } g = .ok p →
    p.visits ≤ limit ∧ a.solve { settings with maxVisits := higher } g = .ok p
  /-- A run that fails has made all the visits it is allowed, has counted one more, and leaves what
  the run with the higher limit has found after so many visits; no lower limit is enough. -/
  cut : ∀ failure, a.solve { settings with maxVisits := limit } g = .error failure →
    failure.fault = .malformed (.nonTermination limit) ∧ failure.pass.visits = limit + 1 ∧
      a.FindsAfter { settings with maxVisits := higher } g limit failure.pass.findings ∧
      ∀ lower < limit, ∀ p, a.solve { settings with maxVisits := lower } g ≠ .ok p

/-- The runs of an analysis on a graph are those of one set-up, with the limit as it is set. -/
theorem exists_run_eq_solve {g : Graph} (hg : g.WellFormed) (a : Analysis V S)
    (settings : Settings) : ∃ (s : Setup V S) (start : Pass V S), s.Starts start ∧ ∀ limit,
      a.prepare { settings with maxVisits := limit } g = .ok (s.withLimit limit, start) ∧
      a.solve { settings with maxVisits := limit } g = (s.withLimit limit).run limit start := by
  obtain ⟨start, hprepare⟩ := a.exists_prepare hg
  refine ⟨⟨g, a, settings, g.pointsOf a.direction⟩, start, ?_, fun limit => ⟨hprepare _, ?_⟩⟩
  · exact (starts_of_prepare hg (hprepare settings)).1
  · rw [solve, hprepare]
    rfl

variable [LawfulJoin S] [PlainWidening S]

/-- Where merges are joins, a limit only cuts runs off. -/
theorem cutsOff (a : Analysis V S) (settings : Settings) {g : Graph} (hg : g.WellFormed)
    {limit higher : ℕ} (hle : limit ≤ higher) : a.CutsOff settings g limit higher := by
  obtain ⟨s, start, hs, hruns⟩ := a.exists_run_eq_solve hg settings
  -- what one limit is enough for, every higher one is
  have hkept : ∀ {low high : ℕ}, low ≤ high → ∀ p,
      a.solve { settings with maxVisits := low } g = .ok p →
        p.visits ≤ low ∧ a.solve { settings with maxVisits := high } g = .ok p := by
    intro low high hlow p hp
    rw [(hruns low).2, Setup.run_eq_ok_iff] at hp
    obtain ⟨visits, hvisits, hlength, hnone⟩ := hp
    rw [(hruns high).2, Setup.run_eq_ok_iff]
    have hcount : p.visits = visits.length := (hvisits.withLimit s.settings.maxVisits).visits_eq hs
    exact ⟨hcount ▸ hlength, visits, hvisits.withLimit high, by omega, hnone⟩
  refine ⟨hkept hle, fun failure hfailure => ?_⟩
  have hstarts : (s.withLimit limit).Starts start := ⟨hs.wellFormed, hs.started⟩
  have hrun := hfailure
  rw [(hruns limit).2] at hrun
  obtain ⟨visits, q, b, pending, hvisits, hlength, rfl, -⟩ := hstarts.history_of_failure .nil hrun
  rw [List.nil_append] at hvisits
  have hhigher : (s.withLimit higher).History start visits q := hvisits.withLimit higher
  refine ⟨rfl, ?_, ⟨s.withLimit higher, start, visits, q, (hruns higher).1, hhigher, hlength, rfl,
    hle, ?_⟩, ?_⟩
  · show q.visits + 1 = limit + 1
    rw [hvisits.visits_eq hstarts, hlength]
  · rw [(hruns higher).2, ← hhigher.run_eq, hlength]
    show _ = (s.withLimit higher).run (limit + (higher - limit)) start
    rw [Nat.add_sub_cancel' hle]
  · intro lower hlower p hp
    have hok := (hkept (Nat.le_of_lt hlower) p hp).2
    rw [hfailure] at hok
    cases hok

end Analysis

/-- For the shipped analyses the limit on visits is only a cut-off. -/
theorem visit_limits_only_cut_runs_off (settings : Settings) (g : Graph) (hg : g.Built)
    (limit higher : ℕ) (hle : limit ≤ higher) :
    Constants.analysis.CutsOff settings g limit higher ∧
      Nullness.analysis.CutsOff settings g limit higher ∧
      LiveLocals.analysis.CutsOff settings g limit higher :=
  ⟨Constants.analysis.cutsOff settings hg.wellFormed hle,
    Nullness.analysis.cutsOff settings hg.wellFormed hle,
    LiveLocals.analysis.cutsOff settings hg.wellFormed hle⟩

/-- Constant propagation gets round the loop of the stale read within thirteen visits, but not within
three; the run that is allowed three is given up where the other is after three. -/
theorem staleGraph_cut_off :
    staleGraph.Built ∧ 3 ≤ 13 ∧
      (Constants.analysis.solve { Settings.default .debug with maxVisits := 3 }
        staleGraph).toOption.isSome = false ∧
      (Constants.analysis.solve { Settings.default .debug with maxVisits := 13 }
        staleGraph).toOption.isSome = true ∧
      Constants.analysis.CutsOff (.default .debug) staleGraph 3 13 ∧
      Nullness.analysis.CutsOff (.default .debug) staleGraph 3 13 ∧
      LiveLocals.analysis.CutsOff (.default .debug) staleGraph 3 13 :=
  ⟨staleGraph_built, by decide, by decide +kernel, by decide +kernel,
    visit_limits_only_cut_runs_off (.default .debug) staleGraph staleGraph_built 3 13 (by decide)⟩

end FlowFixpoint
