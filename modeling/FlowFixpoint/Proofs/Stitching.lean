/-
# FlowFixpoint.Proofs.Stitching — reports of different graphs in one.

Combining reports joins their tables, and where both have an entry the right one counts. The tables
of inputs and values are kept by block and node, and those carry the number of their graph; so
reports of different graphs meet in the tables of trees and of locals only, where the last report
that knows something is believed.

The stores around a node are not in a table. They are found by passing the node's block again, and
what is looked up on the way are the values of all reports together. But a node is passed with the
values of its operands at most, and the operands of a node of a built graph are nodes of that graph.
-/
import FlowFixpoint.Proofs.EvaluationOrder
import FlowFixpoint.Proofs.Ownership
import FlowFixpoint.Proofs.ReportReach

namespace FlowFixpoint

variable {V S : Type}

/-! ## Combining -/

section Tables

variable {K W : Type} [Ord K] [Std.TransOrd K] [Std.LawfulEqOrd K]

theorem table_union_self (t : Std.ExtTreeMap K W) : t ∪ t = t := by
  apply Std.ExtTreeMap.ext_getElem?
  intro k
  rw [Std.ExtTreeMap.getElem?_union, Option.or_self]

theorem table_union_assoc (t u v : Std.ExtTreeMap K W) : (t ∪ u) ∪ v = t ∪ (u ∪ v) := by
  apply Std.ExtTreeMap.ext_getElem?
  intro k
  simp only [Std.ExtTreeMap.getElem?_union, Option.or_assoc]

end Tables

namespace Report

theorem combine_self (r : Report V S) : r.combine r = r := by
  simp only [combine, Findings.combine, table_union_self]

theorem combine_assoc (r other third : Report V S) :
    (r.combine other).combine third = r.combine (other.combine third) := by
  simp only [combine, Findings.combine, table_union_assoc]

/-- Reports combined one after the other into an empty one. -/
def combineAll (rs : List (Report V S)) : Report V S := rs.foldl combine empty

theorem combineAll_concat (rs : List (Report V S)) (r : Report V S) :
    combineAll (rs ++ [r]) = (combineAll rs).combine r := by
  simp [combineAll]

/-- In each table of the reports together, the last report that has an entry is believed. -/
theorem combineAll_lookup {K W : Type} [Ord K] [Std.TransOrd K]
    {table : Report V S → Std.ExtTreeMap K W} (hempty : table empty = ∅)
    (hcombine : ∀ r other, table (r.combine other) = table r ∪ table other)
    (rs : List (Report V S)) (k : K) :
    (table (combineAll rs))[k]? = rs.reverse.findSome? fun r => (table r)[k]? := by
  induction rs using List.reverseRecOn with
  | nil => simp [combineAll, hempty]
  | append_singleton rs r ih =>
    rw [combineAll_concat, hcombine, Std.ExtTreeMap.getElem?_union, ih, List.reverse_append,
      List.findSome?_append]
    simp

end Report

/-! ## Passing a block again with other values -/

namespace Replay

variable {r : Replay V S} {reads : NodeKind → List NodeId} {values values' : Std.ExtTreeMap NodeId V}

/-- Passing nodes again looks at no values but those that the nodes read. -/
theorem passAll_congr (ha : r.analysis.ReadsOnly reads) (input : Flow S) {ns : List Node}
    (h : ∀ n ∈ ns, ∀ m ∈ reads n.kind, values[m]? = values'[m]?) :
    r.passAll values input ns = r.passAll values' input ns := by
  induction ns using List.reverseRecOn with
  | nil => rfl
  | append_singleton ns n ih =>
    rw [passAll_concat, passAll_concat, ih fun k hk => h k (by simp [hk])]
    exact congrArg Outcome.flow (ha.agree _ _ _ _ _ n _ (h n (by simp)))

/-- Nor does the search for the stores around a node. -/
theorem around_congr [Join S] (ha : r.analysis.ReadsOnly reads) (input : Flow S) {n : Node}
    {nodes : List Node} (hwalk : r.graph.walk r.analysis.direction n.block = .ok nodes)
    (h : ∀ k ∈ nodes, ∀ m ∈ reads k.kind, values[m]? = values'[m]?) :
    r.around values input n = r.around values' input n := by
  unfold around
  rw [hwalk]
  simp only [bind, Except.bind]
  split
  · rfl
  · next m rest hcons =>
    have hm : m ∈ nodes := by
      apply (List.dropWhile_sublist _).mem
      rw [hcons]
      exact List.mem_cons_self
    have harriving : r.passAll values input (nodes.takeWhile fun m => m.id ≠ n.id) =
        r.passAll values' input (nodes.takeWhile fun m => m.id ≠ n.id) :=
      passAll_congr ha input fun k hk => h k ((List.takeWhile_sublist _).mem hk)
    have hleaving : ∀ φ, r.outcome values φ m = r.outcome values' φ m :=
      fun φ => ha.agree _ _ _ _ _ m φ (h m hm)
    rw [harriving, hleaving]

end Replay

/-! ## Finished runs -/

section Runs

variable [Store S] [DecidableEq S] [DecidableEq V]

/-- A run on a built graph that has come to its end. -/
structure Analysis.Finished (a : Analysis V S) where
  settings : Settings
  graph : Graph
  pass : Pass V S
  built : graph.Built
  solved : a.solve settings graph = .ok pass

namespace Analysis.Finished

variable {a : Analysis V S}

/-- The run of an analysis on a graph, if it comes to its end. -/
def ofSolve (settings : Settings) {g : Graph} (hg : g.Built)
    (h : (a.solve settings g).toOption.isSome = true) : a.Finished where
  settings
  graph := g
  pass := (a.solve settings g).toOption.get h
  built := hg
  solved := by
    obtain ⟨p, hp⟩ := exists_eq_ok h
    simp [hp, Except.toOption]

/-- The report of the run. -/
def report (run : a.Finished) : Report V S := .ofRun a run.graph (.ok run.pass)

theorem replays_report (run : a.Finished) (id : GraphId) :
    run.report.replays[id]? = if run.graph.id = id then some ⟨run.graph, a⟩ else none := by
  simp [report, Report.ofRun, Std.ExtTreeMap.getElem?_insert]

variable [LawfulJoin S] [PlainWidening S] (run : a.Finished)

theorem about : run.report.findings.About run.graph a.direction :=
  ((a.reportsReach run.settings run.built.wellFormed).finished run.pass run.solved).about

/-- The report has inputs for blocks of its graph only. -/
theorem input_of_ne {b : BlockId} (h : b.graph ≠ run.graph.id) : run.report.input? b = none := by
  by_contra hsome
  obtain ⟨block, hblock⟩ := run.built.wellFormed.exists_block_of_reaches
    (run.about.inputs b (Option.isSome_iff_ne_none.mpr hsome))
  exact h (Graph.block?_eq_some_iff.mp hblock).1

/-- The report has values for nodes of its graph only. -/
theorem value_of_ne {n : NodeId} (h : n.graph ≠ run.graph.id) : run.report.value? n = none := by
  by_contra hsome
  obtain ⟨node, ⟨b, -, hnode⟩, rfl⟩ := run.about.values n (Option.isSome_iff_ne_none.mpr hsome)
  obtain ⟨-, hfound⟩ := run.built.wellFormed.block_of_mem_nodesOf hnode
  exact h (Graph.node?_eq_some_iff.mp hfound).1

omit [LawfulJoin S] [PlainWidening S] in
/-- A report that has the block inputs and node values of a run, and passes the run's graph again,
finds the stores that the run's own report finds. -/
theorem storesAround_eq {reads : NodeKind → List NodeId} (ha : a.ReadsOnly reads)
    (hreads : ∀ kind, reads kind ⊆ kind.operands) {r : Report V S} {n : NodeId}
    (hreplay : r.replays[n.graph]? = some ⟨run.graph, a⟩) (hn : n.graph = run.graph.id)
    (hinputs : ∀ b, b.graph = run.graph.id → r.input? b = run.report.input? b)
    (hvalues : ∀ m, m.graph = run.graph.id → r.value? m = run.report.value? m) :
    r.storesAround n = run.report.storesAround n := by
  have hown : run.report.replays[n.graph]? = some ⟨run.graph, a⟩ := by
    rw [replays_report, if_pos hn.symm]
  unfold Report.storesAround
  rw [hreplay, hown]
  dsimp only
  cases hnode : run.graph.node? n with
  | none => rfl
  | some node =>
    obtain ⟨block, hblock⟩ := run.built.exists_block_of_node hnode
    have hinput := hinputs node.block (Graph.block?_eq_some_iff.mp hblock).1
    unfold Report.input? at hinput
    dsimp only
    rw [hinput]
    cases run.report.findings.inputs[node.block]? with
    | none => rfl
    | some input =>
      refine Replay.around_congr ha input (run.built.wellFormed.walk_eq a.direction hblock) ?_
      -- whatever is read on the way is a node of the same graph
      intro k hk m hm
      obtain ⟨-, hfound⟩ := run.built.wellFormed.block_of_mem_nodesOf (Graph.mem_passedNodes.mp hk)
      obtain ⟨P, hlists⟩ := run.built.exists_listsNodes
      have hsome := hlists.operands k (Array.mem_of_getElem? (Graph.node?_eq_some_iff.mp hfound).2)
        m (hreads k.kind hm)
      obtain ⟨operand, hoperand⟩ := Option.isSome_iff_exists.mp hsome
      exact hvalues m (Graph.node?_eq_some_iff.mp hoperand).1

/-! ## Several runs -/

section Several

variable {W : Type} {runs : List a.Finished} {look : a.Finished → Option W} {id : GraphId}

omit [LawfulJoin S] [PlainWidening S] in
/-- Among runs on different graphs, what only the runs on one graph can answer is answered by the
run on that graph. -/
theorem findSome?_eq (hdistinct : (runs.map fun run => run.graph.id).Nodup)
    (hlook : ∀ run : a.Finished, id ≠ run.graph.id → look run = none) {run : a.Finished}
    (hrun : run ∈ runs) (hid : id = run.graph.id) : runs.reverse.findSome? look = look run := by
  cases hfound : runs.reverse.findSome? look with
  | none =>
    rw [List.findSome?_eq_none_iff] at hfound
    exact (hfound run (List.mem_reverse.mpr hrun)).symm
  | some w =>
    obtain ⟨other, hother, hw⟩ := List.exists_of_findSome?_eq_some hfound
    have hsame : id = other.graph.id := by
      by_contra hne
      rw [hlook other hne] at hw
      cases hw
    obtain rfl : other = run :=
      List.inj_on_of_nodup_map hdistinct (List.mem_reverse.mp hother) hrun (hsame.symm.trans hid)
    exact hw.symm

omit [LawfulJoin S] [PlainWidening S] in
/-- And there is an answer exactly if one of the runs has it. -/
theorem findSome?_eq_some_iff (hdistinct : (runs.map fun run => run.graph.id).Nodup)
    (hlook : ∀ run : a.Finished, id ≠ run.graph.id → look run = none) {w : W} :
    runs.reverse.findSome? look = some w ↔ ∃ run ∈ runs, look run = some w := by
  constructor
  · intro hfound
    obtain ⟨run, hrun, hw⟩ := List.exists_of_findSome?_eq_some hfound
    exact ⟨run, List.mem_reverse.mp hrun, hw⟩
  · rintro ⟨run, hrun, hw⟩
    have hid : id = run.graph.id := by
      by_contra hne
      rw [hlook run hne] at hw
      cases hw
    rw [findSome?_eq hdistinct hlook hrun hid, hw]

end Several

variable (runs : List a.Finished)

/-- The reports of runs, combined in this order. -/
def stitched : Report V S := .combineAll (runs.map report)

omit [LawfulJoin S] [PlainWidening S] in
theorem stitched_lookup {K W : Type} [Ord K] [Std.TransOrd K]
    (table : Report V S → Std.ExtTreeMap K W) (hempty : table .empty = ∅)
    (hcombine : ∀ r other, table (r.combine other) = table r ∪ table other) (k : K) :
    (table (stitched runs))[k]? = runs.reverse.findSome? fun run => (table run.report)[k]? := by
  rw [stitched, Report.combineAll_lookup hempty hcombine, ← List.map_reverse, List.findSome?_map]
  rfl

variable {runs}

omit [LawfulJoin S] [PlainWidening S] in
theorem value?_stitched (n : NodeId) :
    (stitched runs).value? n = runs.reverse.findSome? fun run => run.report.value? n :=
  stitched_lookup runs (fun r => r.findings.values) rfl (fun _ _ => rfl) n

omit [LawfulJoin S] [PlainWidening S] in
theorem input?_stitched (b : BlockId) :
    (stitched runs).input? b = runs.reverse.findSome? fun run => run.report.input? b :=
  stitched_lookup runs (fun r => r.findings.inputs) rfl (fun _ _ => rfl) b

variable (hdistinct : (runs.map fun run => run.graph.id).Nodup) {run : a.Finished}
  (hrun : run ∈ runs)

include hdistinct hrun

theorem value?_stitched_of_mem {n : NodeId} (hn : n.graph = run.graph.id) :
    (stitched runs).value? n = run.report.value? n :=
  (value?_stitched n).trans
    (findSome?_eq hdistinct (fun other => other.value_of_ne) hrun hn)

theorem input?_stitched_of_mem {b : BlockId} (hb : b.graph = run.graph.id) :
    (stitched runs).input? b = run.report.input? b :=
  (input?_stitched b).trans
    (findSome?_eq hdistinct (fun other => other.input_of_ne) hrun hb)

omit [LawfulJoin S] [PlainWidening S] in
/-- The graph of each run can be passed again. -/
theorem replays_stitched_of_mem :
    (stitched runs).replays[run.graph.id]? = some ⟨run.graph, a⟩ := by
  have hother : ∀ other : a.Finished, run.graph.id ≠ other.graph.id →
      other.report.replays[run.graph.id]? = none := by
    intro other hne
    rw [other.replays_report, if_neg (Ne.symm hne)]
  rw [stitched_lookup runs (fun r => r.replays) rfl (fun _ _ => rfl) run.graph.id,
    findSome?_eq hdistinct hother hrun rfl, run.replays_report, if_pos rfl]

/-- The stores around a node are found in its own graph, among the values of all graphs. -/
theorem storesAround_stitched {reads : NodeKind → List NodeId} (ha : a.ReadsOnly reads)
    (hreads : ∀ kind, reads kind ⊆ kind.operands) {n : NodeId} (hn : n.graph = run.graph.id) :
    (stitched runs).storesAround n = run.report.storesAround n :=
  run.storesAround_eq ha hreads (hn ▸ replays_stitched_of_mem hdistinct hrun) hn
    (fun _ hb => input?_stitched_of_mem hdistinct hrun hb)
    (fun _ hm => value?_stitched_of_mem hdistinct hrun hm)

end Analysis.Finished

/-- The report is what runs on different graphs have reported, stitched together. About the blocks
and nodes of the graph of a run it says what the run has reported. Its inputs and values are those of
the runs, of which no two are about the same block or node. About trees and locals it says what the
last run has reported that knows them. -/
structure Report.Stitches {a : Analysis V S} (r : Report V S) (runs : List a.Finished) : Prop where
  value : ∀ run ∈ runs, ∀ n, n.graph = run.graph.id → r.value? n = run.report.value? n
  input : ∀ run ∈ runs, ∀ b, b.graph = run.graph.id → r.input? b = run.report.input? b
  before : ∀ run ∈ runs, ∀ n, n.graph = run.graph.id →
    r.storeBefore n = run.report.storeBefore n
  after : ∀ run ∈ runs, ∀ n, n.graph = run.graph.id → r.storeAfter n = run.report.storeAfter n
  values : ∀ n v, r.value? n = some v ↔ ∃ run ∈ runs, run.report.value? n = some v
  inputs : ∀ b φ, r.input? b = some φ ↔ ∃ run ∈ runs, run.report.input? b = some φ
  apart : runs.Pairwise fun run other =>
    (∀ n, run.report.value? n = none ∨ other.report.value? n = none) ∧
      ∀ b, run.report.input? b = none ∨ other.report.input? b = none
  tree : ∀ t, r.nodeForTree? t = runs.reverse.findSome? fun run => run.report.nodeForTree? t
  final : ∀ x, r.final? x = runs.reverse.findSome? fun run => run.report.final? x

/-- Reports of runs on different graphs are stitched together by combining them in any order. -/
theorem Analysis.ReadsOnly.stitches [LawfulJoin S] [PlainWidening S] {a : Analysis V S}
    {reads : NodeKind → List NodeId} (ha : a.ReadsOnly reads)
    (hreads : ∀ kind, reads kind ⊆ kind.operands) {runs : List a.Finished}
    (hdistinct : (runs.map fun run => run.graph.id).Nodup) :
    (Finished.stitched runs).Stitches runs where
  value run hrun n hn := Finished.value?_stitched_of_mem hdistinct hrun hn
  input run hrun b hb := Finished.input?_stitched_of_mem hdistinct hrun hb
  before run hrun n hn := by
    rw [Report.storeBefore, Finished.storesAround_stitched hdistinct hrun ha hreads hn]
    rfl
  after run hrun n hn := by
    rw [Report.storeAfter, Finished.storesAround_stitched hdistinct hrun ha hreads hn]
    rfl
  values n v := by
    rw [Finished.value?_stitched]
    exact Finished.findSome?_eq_some_iff hdistinct fun run => run.value_of_ne
  inputs b φ := by
    rw [Finished.input?_stitched]
    exact Finished.findSome?_eq_some_iff hdistinct fun run => run.input_of_ne
  apart := by
    apply (List.pairwise_map.mp hdistinct).imp
    intro run other hne
    refine ⟨fun n => ?_, fun b => ?_⟩
    · by_cases hn : n.graph = run.graph.id
      · exact .inr (other.value_of_ne (hn ▸ hne))
      · exact .inl (run.value_of_ne hn)
    · by_cases hb : b.graph = run.graph.id
      · exact .inr (other.input_of_ne (hb ▸ hne))
      · exact .inl (run.input_of_ne hb)
  tree := Finished.stitched_lookup runs (fun r => r.findings.trees) rfl fun _ _ => rfl
  final := Finished.stitched_lookup runs (fun r => r.findings.finals) rfl fun _ _ => rfl

end Runs

/-! ## The shipped analyses -/

/-- Live locals have no values to look at. -/
theorem LiveLocals.readsOnly : analysis.ReadsOnly fun _ => [] where
  agree _ _ _ _ _ _ _ _ := rfl
  valued _ _ _ _ _ := rfl

/-- However the reports of runs on different graphs are combined, no answer about a graph changes.
Graphs are different exactly if their numbers are. Combining a report with itself does nothing, and
combining is associative. -/
theorem combining_changes_no_answer :
    (∀ runs : List Constants.analysis.Finished, (runs.map fun run => run.graph.id).Nodup →
      (Analysis.Finished.stitched runs).Stitches runs) ∧
    (∀ runs : List Nullness.analysis.Finished, (runs.map fun run => run.graph.id).Nodup →
      (Analysis.Finished.stitched runs).Stitches runs) ∧
    (∀ runs : List LiveLocals.analysis.Finished, (runs.map fun run => run.graph.id).Nodup →
      (Analysis.Finished.stitched runs).Stitches runs) ∧
    (∀ (V S : Type) (r : Report V S), r.combine r = r) ∧
    ∀ (V S : Type) (r other third : Report V S),
      (r.combine other).combine third = r.combine (other.combine third) :=
  ⟨fun _ h => Constants.readsOnly.stitches Constants.reads_subset_operands h,
    fun _ h => Nullness.readsOnly.stitches Nullness.reads_subset_operands h,
    fun _ h => LiveLocals.readsOnly.stitches (fun _ => List.nil_subset _) h,
    fun _ _ => Report.combine_self, fun _ _ => Report.combine_assoc⟩

/-- Sets `x` to a value, in a graph with a given number. The literal answers for tree 7. -/
def settingSteps (id : GraphId) (value : Int64) : List Draft.Step :=
  [.addBlock .regular, .push ⟨id, 3⟩ (.literal (.integer value)),
    .push ⟨id, 3⟩ (.assignment ⟨"x"⟩ ⟨id, 0⟩), .attachTree ⟨id, 0⟩ 7,
    .addEdge ⟨id, 0⟩ ⟨id, 3⟩ .unconditional, .addEdge ⟨id, 3⟩ ⟨id, 1⟩ .unconditional]

/-- The graph of these operations. -/
def setting (id : GraphId) (value : Int64) : Graph :=
  match ((Draft.start id (.loose "")).applyAll (settingSteps id value)).freeze with
  | .ok g => g
  | .error _ => .ofSteps (.loose "") []

theorem setting_built {id : GraphId} {value : Int64}
    (h : ((Draft.start id (.loose "")).applyAll (settingSteps id value)).freeze.toOption.isSome) :
    (setting id value).Built := by
  obtain ⟨g, hg⟩ := exists_eq_ok h
  refine ⟨id, .loose "", settingSteps id value, ?_⟩
  rw [setting, hg]

/-- Runs on two such graphs. -/
def settingRuns : List Constants.analysis.Finished :=
  [.ofSolve (.default .debug) (g := setting 0 1) (setting_built (by decide +kernel))
      (by decide +kernel),
    .ofSolve (.default .debug) (g := setting 1 2) (setting_built (by decide +kernel))
      (by decide +kernel)]

/-- The nodes of both graphs keep their values, and the second graph answers for the tree. -/
theorem settingRuns_stitched :
    (settingRuns.map fun run => run.graph.id) = [0, 1] ∧
      (Analysis.Finished.stitched settingRuns).Stitches settingRuns ∧
      (Analysis.Finished.stitched settingRuns).value? ⟨0, 0⟩ = some (.known 1) ∧
      (Analysis.Finished.stitched settingRuns).value? ⟨1, 0⟩ = some (.known 2) ∧
      (Analysis.Finished.stitched settingRuns).nodeForTree? 7 = some ⟨1, 0⟩ :=
  ⟨by decide +kernel, combining_changes_no_answer.1 settingRuns (by decide +kernel),
    by decide +kernel, by decide +kernel, by decide +kernel⟩

end FlowFixpoint
