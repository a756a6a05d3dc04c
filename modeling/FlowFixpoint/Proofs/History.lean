/-
# FlowFixpoint.Proofs.History — the visits of a run, one after the other.

`Reached` says that some visits lead from one state to another; a history lists them, oldest first,
each with the state in which the next block was taken off the list. Every state of a run has a
history, the history has as many entries as the run has counted visits, and a run that is allowed so
many visits goes through the state it leads to.

`LastVisit` points at the most recent visit of a block. What is said about the last visit of a block
survives visits of other blocks, and is said anew at each visit of the block itself.
-/
import FlowFixpoint.Proofs.DepthFirstOrder
import FlowFixpoint.Proofs.Visits

namespace FlowFixpoint

variable {V S : Type}

/-! ## The last visit of a block -/

/-- The last of some visits to a block was made in the state `q`; the visits since are `later`. -/
structure LastVisit (visits : List (BlockId × Pass V S)) (b : BlockId) (q : Pass V S)
    (later : List (BlockId × Pass V S)) : Prop where
  split : ∃ earlier, visits = earlier ++ (b, q) :: later
  others : ∀ v ∈ later, v.1 ≠ b

namespace LastVisit

variable {visits later : List (BlockId × Pass V S)} {b c : BlockId} {p q : Pass V S}

theorem self (visits : List (BlockId × Pass V S)) (b : BlockId) (p : Pass V S) :
    LastVisit (visits ++ [(b, p)]) b p [] where
  split := ⟨visits, rfl⟩
  others := by simp

theorem concat (h : LastVisit visits b q later) (hcb : c ≠ b) :
    LastVisit (visits ++ [(c, p)]) b q (later ++ [(c, p)]) where
  split := by
    obtain ⟨earlier, rfl⟩ := h.split
    exact ⟨earlier, by simp⟩
  others v hv := by
    rcases List.mem_append.mp hv with hv | hv
    · exact h.others v hv
    · rw [List.mem_singleton.mp hv]
      exact hcb

end LastVisit

/-! ## Histories -/

namespace Setup

variable [Store S] [DecidableEq S] [DecidableEq V]

/-- The visits that lead from one state to another. -/
inductive History (s : Setup V S) (start : Pass V S) :
    List (BlockId × Pass V S) → Pass V S → Prop
  | nil : History s start [] start
  | concat {visits : List (BlockId × Pass V S)} {p p' : Pass V S} {b : BlockId} :
      History s start visits p → s.Step b p p' → History s start (visits ++ [(b, p)]) p'

variable {s : Setup V S} {start p : Pass V S} {visits : List (BlockId × Pass V S)}

/-- Only blocks that flow reaches get an input. -/
theorem Starts.reaches_of_input (hs : s.Starts start) (h : s.Reached start p) {b : BlockId}
    (hb : (p.input? b).isSome) : s.graph.Reaches s.analysis.direction b :=
  hs.holds_of_input h (fun b hb => ⟨b, hb, .refl⟩)
    (fun e he htail => htail.tail ⟨e, he, rfl, rfl⟩) hb

theorem History.reached (h : s.History start visits p) : s.Reached start p := by
  induction h with
  | nil => exact .refl
  | concat _ hstep ih => exact ih.tail ⟨_, hstep⟩

/-- The states in which a history makes its visits are states of the run. -/
theorem History.reached_of_mem (h : s.History start visits p) {b : BlockId} {q : Pass V S}
    (hq : (b, q) ∈ visits) : s.Reached start q := by
  induction h with
  | nil => cases hq
  | concat hbefore _ ih =>
    rcases List.mem_append.mp hq with hq | hq
    · exact ih hq
    · cases List.mem_singleton.mp hq
      exact hbefore.reached

/-- A history visits only blocks with an input. -/
theorem History.input_of_mem (hs : s.Starts start) (h : s.History start visits p) {b : BlockId}
    {q : Pass V S} (hq : (b, q) ∈ visits) : ∃ input, q.input? b = some input := by
  induction h with
  | nil => cases hq
  | concat hbefore hstep ih =>
    rcases List.mem_append.mp hq with hq | hq
    · exact ih hq
    · cases List.mem_singleton.mp hq
      obtain ⟨input, hframe⟩ :=
        hstep.stepped hs.wellFormed (hs.orderly_of_reached hbefore.reached)
      exact ⟨input, hframe.arrived⟩

theorem exists_history (h : s.Reached start p) : ∃ visits, s.History start visits p := by
  induction h with
  | refl => exact ⟨[], .nil⟩
  | tail _ hstep ih =>
    obtain ⟨visits, hvisits⟩ := ih
    obtain ⟨b, hstep⟩ := hstep
    exact ⟨_, hvisits.concat hstep⟩

/-- The history is as long as the count of visits says. -/
theorem History.visits_eq (hs : s.Starts start) (h : s.History start visits p) :
    p.visits = visits.length := by
  induction h with
  | nil => exact hs.started.visits
  | @concat visits p p' b hbefore hstep ih =>
    rw [hstep.visits hs.wellFormed (hs.orderly_of_reached hbefore.reached), ih,
      List.length_append, List.length_singleton]

/-- The order in which blocks are taken stays the same throughout. -/
theorem History.order (hs : s.Starts start) (h : s.History start visits p) :
    p.pending.order = start.pending.order := by
  induction h with
  | nil => rfl
  | concat hbefore hstep ih =>
    rw [hstep.order hs.wellFormed (hs.orderly_of_reached hbefore.reached), ih]

/-- The visits before one of a history lead to the state in which it was made. -/
theorem History.before {b : BlockId} {q : Pass V S} {earlier later : List (BlockId × Pass V S)}
    (h : s.History start (earlier ++ (b, q) :: later) p) : s.History start earlier q := by
  generalize hall : earlier ++ (b, q) :: later = visits at h
  induction h generalizing later with
  | nil => simp at hall
  | concat hbefore _ ih =>
    rcases List.eq_nil_or_concat later with rfl | ⟨later, v, rfl⟩
    · obtain ⟨rfl, heq⟩ := List.append_singleton_inj.mp hall
      obtain ⟨rfl, rfl⟩ := Prod.mk.inj heq
      exact hbefore
    · rw [List.concat_eq_append, ← List.cons_append, ← List.append_assoc] at hall
      exact ih (List.append_singleton_inj.mp hall).1

/-- Values have been recorded for nodes of visited blocks only. -/
theorem History.visited_of_value (hs : s.Starts start) (h : s.History start visits p) {m : NodeId}
    (hm : (p.findings.values[m]?).isSome) :
    ∃ b ∈ visits.map Prod.fst, ∃ n ∈ s.graph.nodesOf b, n.id = m := by
  induction h with
  | nil => simp [hs.started.values] at hm
  | @concat visits p p' c hbefore hstep ih =>
    obtain ⟨input, hframe⟩ := hstep.stepped hs.wellFormed (hs.orderly_of_reached hbefore.reached)
    by_cases hown : ∃ n ∈ s.graph.nodesOf c, n.id = m
    · exact ⟨c, by simp, hown⟩
    · have hsame : (s.walkOf c p input).findings.values[m]? = p.findings.values[m]? :=
        Walk.through_values_of_not_mem _ _ _ _ fun n hn hid =>
          hown ⟨n, Graph.mem_passedNodes.mp hn, hid⟩
      rw [hframe.values, hsame] at hm
      obtain ⟨b, hb, hnode⟩ := ih hm
      rw [List.map_append]
      exact ⟨b, List.mem_append_left _ hb, hnode⟩

/-- A run goes through the states that its history leads to. -/
theorem History.run_eq (h : s.History start visits p) (left : ℕ) :
    s.run (visits.length + left) start = s.run left p := by
  induction h generalizing left with
  | nil => rw [List.length_nil, Nat.zero_add]
  | @concat visits p p' b _ hstep ih =>
    rw [List.length_append, List.length_singleton, Nat.add_assoc, ih, Nat.add_comm 1 left]
    obtain ⟨pending, hpop, hvisit⟩ := hstep
    rw [run_succ hpop, hvisit]
    rfl

end Setup

/-! ## Where histories start -/

namespace Analysis

variable {g : Graph}

/-- A built graph can always be analysed; the settings are only carried along. -/
theorem exists_prepare (hg : g.WellFormed) (a : Analysis V S) :
    ∃ start, ∀ settings, a.prepare settings g =
      .ok (⟨g, a, settings, g.pointsOf a.direction⟩, start) := by
  obtain ⟨order, horder⟩ := hg.exists_blockOrder a.direction
  refine ⟨Pass.seedAll { pending := .ofOrder order } (a.seedsOf g), fun settings => ?_⟩
  rw [prepare, a.seeds_eq hg, horder, hg.wideningPoints_eq]
  rfl

end Analysis

end FlowFixpoint
