/-
# FlowFixpoint.Proofs.StoreChains — the stores around the nodes of a block form a chain.

Every store query passes a block again from its recorded input and stops at the node that it asks
about. The queries about neighbouring nodes nevertheless meet: what leaves a node on the way is what
arrives at the node passed next, be it one store or two, and both queries join it only for their
answers. In the order of execution this is the store after the one node and the store before the
other, whichever way flow goes. At the end of the chain where flow comes in stands the block's
input.

A query looks up nothing but the graph, the block's input and the recorded values. So the chain
holds in every report that can pass the graph again, also in one that was combined from several.
-/
import FlowFixpoint.Proofs.BranchRefinement
import FlowFixpoint.Proofs.Stitching

namespace FlowFixpoint

variable {V S : Type}

namespace Report

/-- The queries about the nodes of a block form one chain: the store after a node is the store
before the next one, and the chain hangs on the block's input at the end where flow comes in. -/
structure Chains [Join S] (r : Report V S) (g : Graph) (d : Direction) (b : BlockId)
    (input : Flow S) : Prop where
  meets : ∀ pre n m post, g.nodesOf b = pre ++ n :: m :: post →
    ∃ store, r.storeAfter n.id = .ok (some store) ∧ r.storeBefore m.id = .ok (some store)
  hangs : match d with
    | .forward => ∀ n post, g.nodesOf b = n :: post →
      r.storeBefore n.id = .ok (some input.regular)
    | .backward => ∀ pre n, g.nodesOf b = pre ++ [n] →
      r.storeAfter n.id = .ok (some input.regular)

section Query

variable [Join S] {r : Report V S} {n : NodeId} {before after : S}

theorem storeBefore_of_storesAround (h : r.storesAround n = .ok (some (before, after))) :
    r.storeBefore n = .ok (some before) := by
  rw [storeBefore, h]
  rfl

theorem storeAfter_of_storesAround (h : r.storesAround n = .ok (some (before, after))) :
    r.storeAfter n = .ok (some after) := by
  rw [storeAfter, h]
  rfl

end Query

variable [Join S] {r : Report V S} {a : Analysis V S} {g : Graph} {b : BlockId} {input : Flow S}

/-- Forward, a node finds the flow behind the nodes before it in the block. -/
theorem stores_forward (hg : g.WellFormed) (hreplay : r.replays[g.id]? = some ⟨g, a⟩)
    (hinput : r.input? b = some input) (hforward : a.direction = .forward) {pre post : List Node}
    {n : Node} (hsplit : g.nodesOf b = pre ++ n :: post) :
    r.storeBefore n.id =
        .ok (some (Replay.passAll ⟨g, a⟩ r.findings.values input pre).regular) ∧
      r.storeAfter n.id =
        .ok (some (Replay.passAll ⟨g, a⟩ r.findings.values input (pre ++ [n])).regular) := by
  have hpassed : g.passedNodes a.direction b = pre ++ n :: post := by
    rw [hforward]
    exact hsplit
  have hstores := storesAround_of_replay hg hreplay hinput hpassed
  rw [hforward] at hstores
  exact ⟨storeBefore_of_storesAround hstores, storeAfter_of_storesAround hstores⟩

/-- Backward, it finds the flow behind the nodes after it, the last one first. -/
theorem stores_backward (hg : g.WellFormed) (hreplay : r.replays[g.id]? = some ⟨g, a⟩)
    (hinput : r.input? b = some input) (hbackward : a.direction = .backward) {pre post : List Node}
    {n : Node} (hsplit : g.nodesOf b = pre ++ n :: post) :
    r.storeBefore n.id =
        .ok (some (Replay.passAll ⟨g, a⟩ r.findings.values input (n :: post).reverse).regular) ∧
      r.storeAfter n.id =
        .ok (some (Replay.passAll ⟨g, a⟩ r.findings.values input post.reverse).regular) := by
  have hpassed : g.passedNodes a.direction b = post.reverse ++ n :: pre.reverse := by
    rw [hbackward]
    show (g.nodesOf b).reverse = _
    simp [hsplit]
  have hstores := storesAround_of_replay hg hreplay hinput hpassed
  rw [hbackward] at hstores
  rw [List.reverse_cons]
  exact ⟨storeBefore_of_storesAround hstores, storeAfter_of_storesAround hstores⟩

/-- Where the graph can be passed again, the queries about a block with an input form a chain. -/
theorem chains_of_replay (hg : g.WellFormed) (hreplay : r.replays[g.id]? = some ⟨g, a⟩)
    (hinput : r.input? b = some input) : r.Chains g a.direction b input := by
  cases hdirection : a.direction with
  | forward =>
    refine ⟨fun pre n m post hsplit => ?_, fun n post hsplit => ?_⟩
    · obtain ⟨-, hafter⟩ := stores_forward hg hreplay hinput hdirection hsplit
      obtain ⟨hbefore, -⟩ := stores_forward hg hreplay hinput hdirection
        (show g.nodesOf b = (pre ++ [n]) ++ m :: post by simp [hsplit])
      exact ⟨_, hafter, hbefore⟩
    · exact (stores_forward hg hreplay hinput hdirection
        (show g.nodesOf b = [] ++ n :: post from hsplit)).1
  | backward =>
    refine ⟨fun pre n m post hsplit => ?_, fun pre n hsplit => ?_⟩
    · obtain ⟨-, hafter⟩ := stores_backward hg hreplay hinput hdirection hsplit
      obtain ⟨hbefore, -⟩ := stores_backward hg hreplay hinput hdirection
        (show g.nodesOf b = (pre ++ [n]) ++ m :: post by simp [hsplit])
      exact ⟨_, hafter, hbefore⟩
    · exact (stores_backward hg hreplay hinput hdirection hsplit).2

end Report

/-! ## Finished runs -/

/-- In the report of a finished run, and in the reports of finished runs on different graphs
combined in any order, the queries about every block with an input form a chain. -/
structure Analysis.QueriesChain [Store S] [DecidableEq S] [DecidableEq V] (a : Analysis V S)
    (d : Direction) : Prop where
  alone : ∀ run : a.Finished, ∀ b input, run.report.input? b = some input →
    run.report.Chains run.graph d b input
  together : ∀ runs : List a.Finished, (runs.map fun run => run.graph.id).Nodup →
    ∀ run ∈ runs, ∀ b input, (Finished.stitched runs).input? b = some input →
      (Finished.stitched runs).Chains run.graph d b input

theorem Analysis.queriesChain [Store S] [DecidableEq S] [DecidableEq V] (a : Analysis V S) :
    a.QueriesChain a.direction where
  alone run b input hinput := by
    refine Report.chains_of_replay run.built.wellFormed ?_ hinput
    rw [run.replays_report, if_pos rfl]
  together runs hdistinct run hrun b input hinput :=
    Report.chains_of_replay run.built.wellFormed
      (Finished.replays_stitched_of_mem hdistinct hrun) hinput

/-- The store queries of the shipped analyses form one chain for each block. -/
theorem store_queries_form_chains :
    Constants.analysis.QueriesChain .forward ∧ Nullness.analysis.QueriesChain .forward ∧
      LiveLocals.analysis.QueriesChain .backward :=
  ⟨Constants.analysis.queriesChain, Nullness.analysis.queriesChain,
    LiveLocals.analysis.queriesChain⟩

/-- Runs on the graph with two tests and on one that sets `x`. -/
def chainedRuns : List Constants.analysis.Finished :=
  [.ofSolve (.default .debug) (g := Constants.testedTwice) Constants.testedTwiceRun.built
      (by decide +kernel),
    .ofSolve (.default .debug) (g := setting 1 3) (setting_built (by decide +kernel))
      (by decide +kernel)]

/-- The chain goes through the first test, behind which there are two stores, and hangs on the input
of the block. Backward it hangs on the end of the block. -/
theorem chainedRuns_queries_form_chains :
    (chainedRuns.map fun run => run.graph.id) = [0, 1] ∧
      (∃ store, (Analysis.Finished.stitched chainedRuns).storeAfter ⟨0, 2⟩ = .ok (some store) ∧
        (Analysis.Finished.stitched chainedRuns).storeBefore ⟨0, 3⟩ = .ok (some store)) ∧
      (∃ input, (Analysis.Finished.stitched chainedRuns).input? ⟨1, 3⟩ = some input ∧
        (Analysis.Finished.stitched chainedRuns).storeBefore ⟨1, 0⟩ = .ok (some input.regular)) ∧
      ∃ run : LiveLocals.analysis.Finished, run.graph = setting 1 3 ∧
        ∃ input, run.report.input? ⟨1, 3⟩ = some input ∧
          run.report.storeAfter ⟨1, 1⟩ = .ok (some input.regular) := by
  obtain ⟨⟨-, hforward⟩, -, ⟨hbackward, -⟩⟩ := store_queries_form_chains
  have hdistinct : (chainedRuns.map fun run => run.graph.id).Nodup := by decide +kernel
  obtain ⟨tested, htested⟩ := Option.isSome_iff_exists.mp
    (show ((Analysis.Finished.stitched chainedRuns).input? ⟨0, 3⟩).isSome by decide +kernel)
  obtain ⟨set, hset⟩ := Option.isSome_iff_exists.mp
    (show ((Analysis.Finished.stitched chainedRuns).input? ⟨1, 3⟩).isSome by decide +kernel)
  have hmeets := (hforward chainedRuns hdistinct (chainedRuns.get ⟨0, by decide⟩)
    (List.get_mem _ _) ⟨0, 3⟩ tested htested).meets
    [Constants.inBlockThree 0 (.localRead ⟨"p"⟩), Constants.inBlockThree 1 (.literal (.integer 7))]
    (Constants.inBlockThree 2 (.comparison .notEqual ⟨0, 0⟩ ⟨0, 1⟩))
    (Constants.inBlockThree 3 (.literal (.integer 3)))
    [Constants.inBlockThree 4 (.localRead ⟨"p"⟩),
      Constants.inBlockThree 5 (.comparison .equal ⟨0, 4⟩ ⟨0, 3⟩)] (by decide +kernel)
  have hhangs := (hforward chainedRuns hdistinct (chainedRuns.get ⟨1, by decide⟩)
    (List.get_mem _ _) ⟨1, 3⟩ set hset).hangs ⟨⟨1, 0⟩, ⟨1, 3⟩, .literal (.integer 3), [7]⟩
    [⟨⟨1, 1⟩, ⟨1, 3⟩, .assignment ⟨"x"⟩ ⟨1, 0⟩, []⟩] (by decide +kernel)
  let live : LiveLocals.analysis.Finished :=
    .ofSolve (.default .debug) (g := setting 1 3) (setting_built (by decide +kernel))
      (by decide +kernel)
  obtain ⟨input, hinput⟩ := Option.isSome_iff_exists.mp
    (show (live.report.input? ⟨1, 3⟩).isSome by decide +kernel)
  have hlive := (hbackward live ⟨1, 3⟩ input hinput).hangs
    [⟨⟨1, 0⟩, ⟨1, 3⟩, .literal (.integer 3), [7]⟩] ⟨⟨1, 1⟩, ⟨1, 3⟩, .assignment ⟨"x"⟩ ⟨1, 0⟩, []⟩
    (by decide +kernel)
  exact ⟨by decide +kernel, hmeets, ⟨set, hset, hhangs⟩, live, rfl, input, hinput, hlive⟩

end FlowFixpoint
