/-
# FlowFixpoint.Proofs.StayingInside — no run and no question leaves its graph.

The engine looks up blocks and nodes in the form that fails on a stray identifier. On a built graph
it never fails. The nodes that end the method, which a backward run looks up before it starts, were
noted down when the graph was frozen, and nodes stay. The walks that fix the order of visits and the
widening points follow edges, and both ends of every edge are blocks. A block is taken off the list
only if it has an input, and inputs come from the start blocks and along edges. A visit walks the
nodes that its block lists and asks for the kinds of the blocks that its edges lead to.

A question about stores passes a block again, the one that the node names. That block exists, since
a draft is not frozen before it does; it need not list the node, and then nothing is known. This
does not depend on the findings of a report, so combining reports is harmless, even of different
graphs under one number.
-/
import FlowFixpoint.Proofs.Ownership
import FlowFixpoint.Proofs.ReportReach

namespace FlowFixpoint

variable {V S : Type}

/-! ## Visits -/

namespace Setup

variable [Store S] [DecidableEq S] {s : Setup V S} {start p : Pass V S} {b : BlockId}
  {failure : Failure V S}

/-- A delivery fails over nothing but a contract. -/
theorem deliver_fault {parcel : Parcel S} (h : s.deliver b parcel p = .error failure) :
    ∃ details, failure.fault = .contract b details := by
  cases parcel with
  | input φ =>
    change s.merge b φ p = .error failure at h
    unfold merge at h
    cases hold : p.findings.inputs[b]? with
    | none =>
      rw [hold] at h
      cases h
    | some old =>
      simp only [hold] at h
      split at h
      · cases h
      · cases h
        exact ⟨_, rfl⟩
  | slot outcome x =>
    change s.mergeSlot b outcome x p = .error failure at h
    unfold mergeSlot at h
    simp only at h
    generalize s.fill _ _ _ = merged at h
    cases merged with
    | some merged => cases h
    | none =>
      cases h
      exact ⟨_, rfl⟩

theorem deliverAll_fault {parcels : List (BlockId × Parcel S)}
    (h : s.deliverAll parcels p = .error failure) :
    ∃ c details, failure.fault = .contract c details := by
  induction parcels generalizing p with
  | nil => cases h
  | cons e parcels ih =>
    unfold deliverAll at h
    cases hfirst : s.deliver e.1 e.2 p with
    | ok p' =>
      rw [hfirst] at h
      exact ih h
    | error first =>
      rw [hfirst] at h
      cases h
      exact ⟨e.1, deliver_fault hfirst⟩

variable [DecidableEq V]

/-- A visit of a block of the graph, from an input, meets no stray identifier. -/
theorem visit_fault_ne_stray (hg : s.graph.WellFormed) {block : Block}
    (hblock : s.graph.block? b = some block) {input : Flow S} (hinput : p.input? b = some input)
    (h : s.visit b p = .error failure) (id : Stray) : failure.fault ≠ .stray id := by
  rw [visit_eq hg hblock hinput] at h
  cases hdelivered : s.deliverAll (s.parcelsOf b (s.walkOf b p input).last)
      { p with findings := (s.walkOf b p input).findings } with
  | ok q =>
    rw [hdelivered] at h
    cases h
  | error first =>
    rw [hdelivered] at h
    obtain rfl : first = failure := Except.error.inj h
    obtain ⟨c, details, hfault⟩ := deliverAll_fault hdelivered
    simp [hfault]

/-- Whatever block is next, in whatever state of a run, is one of the graph and has an input. -/
theorem Starts.block_of_pop (hs : s.Starts start) (h : s.Reached start p) {pending : Worklist}
    (hpop : p.pending.pop? = some (b, pending)) :
    (∃ block, s.graph.block? b = some block) ∧ ∃ input, p.input? b = some input := by
  have horderly := hs.orderly_of_reached h
  have hsome := horderly.input_of_pending b (horderly.sound.pop?_eq_some hpop).1
  exact ⟨hs.block_of_input h hsome, Option.isSome_iff_exists.mp hsome⟩

/-- A run meets no stray identifier. -/
theorem Starts.run_fault_ne_stray (hs : s.Starts start) {left : ℕ} (hp : s.Reached start p)
    (h : s.run left p = .error failure) (id : Stray) : failure.fault ≠ .stray id := by
  induction left generalizing p with
  | zero =>
    unfold run at h
    split at h
    · cases h
    · cases h
      simp
  | succ left ih =>
    cases hpop : p.pending.pop? with
    | none =>
      unfold run at h
      simp [hpop] at h
    | some next =>
      obtain ⟨b, pending⟩ := next
      obtain ⟨⟨block, hblock⟩, input, hinput⟩ := hs.block_of_pop hp hpop
      rw [run_succ hpop] at h
      cases hvisit : s.visit b { p with pending, visits := p.visits + 1 } with
      | ok p' =>
        rw [hvisit] at h
        exact ih (hp.tail ⟨b, pending, hpop, hvisit⟩) h
      | error first =>
        rw [hvisit] at h
        obtain rfl : first = failure := Except.error.inj h
        exact visit_fault_ne_stray (p := { p with pending, visits := p.visits + 1 }) hs.wellFormed
          hblock hinput hvisit id

end Setup

/-! ## Runs -/

namespace Analysis

variable [Store S] [DecidableEq S] [DecidableEq V]

/-- A run meets no identifier that its graph does not hold: not among the nodes that end the method,
which the stores at the exits are made of, not when the order of visits and the widening points are
fixed, not in any state when the next block is taken off the list and looked up, and then its nodes
and the blocks that its edges lead to, and so not at the end. -/
structure StaysInside (a : Analysis V S) (settings : Settings) (g : Graph) : Prop where
  returns : ∃ nodes, g.returnNodes = .ok nodes
  seeds : ∃ seeds, a.seeds g = .ok seeds
  flow : ∃ flow, g.flow a.direction = .ok flow
  order : ∃ order, g.blockOrder a.direction = .ok order
  points : ∃ points, g.wideningPoints a.direction = .ok points
  visits : ∃ s start, a.prepare settings g = .ok (s, start) ∧
    ∀ p b pending, s.Reached start p → p.pending.pop? = some (b, pending) →
      ∃ block, g.blockAt b = .ok block ∧ (∃ nodes, g.passedBy a.direction block = .ok nodes) ∧
        ∃ routes, g.routes a.direction block = .ok routes
  ends : ∀ failure, a.solve settings g = .error failure → ∀ id, failure.fault ≠ .stray id

/-- On a well-formed graph every analysis stays inside, also one whose merges fail their checks. -/
theorem staysInside (a : Analysis V S) (settings : Settings) {g : Graph} (hg : g.WellFormed) :
    a.StaysInside settings g := by
  obtain ⟨start, hprepare⟩ := a.exists_prepare hg
  obtain ⟨hs, -⟩ := starts_of_prepare hg (hprepare settings)
  refine ⟨⟨_, hg.returnNodes_eq⟩, ⟨_, a.seeds_eq hg⟩, ⟨_, hg.flow_eq a.direction⟩,
    hg.exists_blockOrder a.direction, ⟨_, hg.wideningPoints_eq a.direction⟩,
    ⟨_, start, hprepare settings, ?_⟩, ?_⟩
  · intro p b pending hp hpop
    obtain ⟨⟨block, hblock⟩, -⟩ := hs.block_of_pop hp hpop
    have hat : g.blockAt b = .ok block := by rw [Graph.blockAt, hblock]
    exact ⟨block, hat, ⟨_, hg.passedBy_eq a.direction hblock⟩, ⟨_, hg.routes_eq a.direction hblock⟩⟩
  · intro failure h
    rw [solve, hprepare settings] at h
    exact hs.run_fault_ne_stray .refl h

end Analysis

/-! ## Questions -/

namespace Report

/-- The reports that come of runs of an analysis on built graphs: of no run, of one, however it has
ended, and of two such reports combined. -/
inductive FromRuns [Store S] [DecidableEq S] [DecidableEq V] (a : Analysis V S) :
    Report V S → Prop
  | empty : FromRuns a .empty
  | run (settings : Settings) (g : Graph) (hg : g.Built) :
      FromRuns a (.ofRun a g (a.solve settings g))
  | combine {r other : Report V S} :
      FromRuns a r → FromRuns a other → FromRuns a (r.combine other)

/-- Every question about stores gets an answer, whatever node or tree it names. The other questions
are look-ups that cannot fail. -/
structure AnswersAll [Join S] (r : Report V S) : Prop where
  before : ∀ n, ∃ store, r.storeBefore n = .ok store
  after : ∀ n, ∃ store, r.storeAfter n = .ok store
  beforeTree : ∀ t, ∃ store, r.storeBeforeTree t = .ok store
  afterTree : ∀ t, ∃ store, r.storeAfterTree t = .ok store

/-- It is enough to find the stores around every node. -/
theorem answersAll_of_storesAround [Join S] {r : Report V S}
    (h : ∀ n, ∃ stores, r.storesAround n = .ok stores) : r.AnswersAll := by
  have hbefore : ∀ n, ∃ store, r.storeBefore n = .ok store := by
    intro n
    obtain ⟨stores, hstores⟩ := h n
    exact ⟨stores.map Prod.fst, by rw [storeBefore, hstores]; rfl⟩
  have hafter : ∀ n, ∃ store, r.storeAfter n = .ok store := by
    intro n
    obtain ⟨stores, hstores⟩ := h n
    exact ⟨stores.map Prod.snd, by rw [storeAfter, hstores]; rfl⟩
  refine ⟨hbefore, hafter, fun t => ?_, fun t => ?_⟩
  · unfold storeBeforeTree
    split
    · exact ⟨none, rfl⟩
    · next n _ => exact hbefore n
  · unfold storeAfterTree
    split
    · exact ⟨none, rfl⟩
    · next n _ => exact hafter n

/-- Blocks are passed again in built graphs only. -/
def ReplaysBuilt (r : Report V S) : Prop :=
  ∀ (id : GraphId) (replay : Replay V S), r.replays[id]? = some replay → replay.graph.Built

/-- The stores around a node are looked for inside the graph that is passed again. -/
theorem ReplaysBuilt.exists_storesAround [Join S] {r : Report V S} (hr : r.ReplaysBuilt)
    (n : NodeId) : ∃ stores, r.storesAround n = .ok stores := by
  unfold storesAround
  split
  · exact ⟨none, rfl⟩
  · next replay hreplay =>
    have hg := hr n.graph replay hreplay
    split
    · exact ⟨none, rfl⟩
    · next node hnode =>
      split
      · exact ⟨none, rfl⟩
      · next input _ =>
        obtain ⟨block, hblock⟩ := hg.exists_block_of_node hnode
        obtain ⟨stores, hstores, -⟩ := Replay.exists_around r.findings.values input
          (hg.wellFormed.walk_eq replay.analysis.direction hblock)
        exact ⟨stores, hstores⟩

theorem ReplaysBuilt.combine {r other : Report V S} (hr : r.ReplaysBuilt)
    (hother : other.ReplaysBuilt) : (r.combine other).ReplaysBuilt := by
  intro id replay hreplay
  have hunion : (r.combine other).replays[id]? = other.replays[id]?.or r.replays[id]? :=
    Std.ExtTreeMap.getElem?_union
  rw [hunion, Option.or_eq_some_iff] at hreplay
  rcases hreplay with hright | ⟨-, hleft⟩
  · exact hother id replay hright
  · exact hr id replay hleft

/-- A run leaves at most its own graph to be passed again. -/
theorem replaysBuilt_ofRun (a : Analysis V S) {g : Graph} (hg : g.Built)
    (result : Except (Failure V S) (Pass V S)) : (ofRun a g result).ReplaysBuilt := by
  intro id replay hreplay
  cases result with
  | error failure => simp [ofRun] at hreplay
  | ok p =>
    rw [ofRun, Std.ExtTreeMap.getElem?_insert] at hreplay
    split at hreplay
    · cases hreplay
      exact hg
    · simp at hreplay

variable [Store S] [DecidableEq S] [DecidableEq V] {a : Analysis V S} {r : Report V S}

theorem FromRuns.replaysBuilt (h : FromRuns a r) : r.ReplaysBuilt := by
  induction h with
  | empty =>
    intro id replay hreplay
    simp [Report.empty] at hreplay
  | run settings g hg => exact replaysBuilt_ofRun a hg _
  | combine _ _ hr hother => exact hr.combine hother

/-- The reports of runs answer everything. -/
theorem FromRuns.answersAll (h : FromRuns a r) : r.AnswersAll :=
  answersAll_of_storesAround h.replaysBuilt.exists_storesAround

end Report

/-- On a built graph no run of a shipped analysis meets a stray identifier, with any settings; and
the reports of such runs, on any graphs and combined in any way, answer every question. -/
theorem runs_and_questions_stay_inside (settings : Settings) (g : Graph) (hg : g.Built) :
    (Constants.analysis.StaysInside settings g ∧
      ∀ r, Report.FromRuns Constants.analysis r → r.AnswersAll) ∧
    (Nullness.analysis.StaysInside settings g ∧
      ∀ r, Report.FromRuns Nullness.analysis r → r.AnswersAll) ∧
    (LiveLocals.analysis.StaysInside settings g ∧
      ∀ r, Report.FromRuns LiveLocals.analysis r → r.AnswersAll) :=
  ⟨⟨Constants.analysis.staysInside settings hg.wellFormed, fun _ h => h.answersAll⟩,
    ⟨Nullness.analysis.staysInside settings hg.wellFormed, fun _ h => h.answersAll⟩,
    ⟨LiveLocals.analysis.staysInside settings hg.wellFormed, fun _ h => h.answersAll⟩⟩

/-- The report of a finished run on the graph with the late block, into which that of a run on another
graph under the same number, given up after one visit, has been combined. -/
def mixedReport : Report Constants.Constant Constants.ConstantStore :=
  (Report.ofRun Constants.analysis lateBlock
      (Constants.analysis.solve (.default .debug) lateBlock)).combine
    (Report.ofRun Constants.analysis staleGraph
      (Constants.analysis.solve { Settings.default .debug with maxVisits := 1 } staleGraph))

/-- The late block does not list the node 0 that names it. Node 8 is one of the other graph only, and
there is no graph with the number 5. -/
theorem lateBlock_stays_inside :
    lateBlock.Built ∧ Constants.analysis.StaysInside (.default .debug) lateBlock ∧
      Nullness.analysis.StaysInside (.default .debug) lateBlock ∧
      LiveLocals.analysis.StaysInside (.default .debug) lateBlock ∧
      Report.FromRuns Constants.analysis mixedReport ∧
      (∃ store, mixedReport.storeBefore ⟨0, 0⟩ = .ok store) ∧
      (∃ store, mixedReport.storeAfter ⟨0, 8⟩ = .ok store) ∧
      ∃ store, mixedReport.storeAfter ⟨5, 99⟩ = .ok store := by
  have hbuilt : lateBlock.Built := ⟨0, .loose "", lateBlockSteps, lateBlock_freeze⟩
  have hmixed : Report.FromRuns Constants.analysis mixedReport :=
    .combine (.run (.default .debug) lateBlock hbuilt)
      (.run { Settings.default .debug with maxVisits := 1 } staleGraph staleGraph_built)
  obtain ⟨⟨hconstants, hanswers⟩, ⟨hnullness, -⟩, hlive, -⟩ :=
    runs_and_questions_stay_inside (.default .debug) lateBlock hbuilt
  have hall := hanswers mixedReport hmixed
  exact ⟨hbuilt, hconstants, hnullness, hlive, hmixed, hall.before _, hall.after _, hall.after _⟩

end FlowFixpoint
