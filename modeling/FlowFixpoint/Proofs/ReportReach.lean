/-
# FlowFixpoint.Proofs.ReportReach — a report covers exactly what flow reaches.

Flow reaches a block if edges lead to it from where flow starts; a node is in reach if such a block
lists it. At any time of a run the tables speak of blocks and nodes in reach only (`About`): a visit
needs an input, an input comes from a start block or along an edge, and a visit writes values and
trees of the nodes of its own block. At the end of a run nothing in reach is missing (`Complete`): a
block with an input that is not pending has been visited, and has sent something along each edge.

The stores around a node can be asked for exactly if the node is in reach. A node that remembers a
block which does not list it is in no reach, though the block may be. A run that has ended early
leaves its tables and answers no question about stores.
-/
import FlowFixpoint.Proofs.Arrivals
import FlowFixpoint.Proofs.DepthFirstOrder
import FlowFixpoint.Proofs.LastVisits
import Mathlib.Data.List.TakeWhile

namespace FlowFixpoint

variable {V S : Type}

/-- The node is listed by a block that flow reaches. -/
def Graph.InReach (g : Graph) (d : Direction) (n : Node) : Prop :=
  ∃ b, g.Reaches d b ∧ n ∈ g.nodesOf b

/-! ## Trees -/

theorem Findings.getElem?_noteTrees (f : Findings V S) (n : Node) (t : TreeId) :
    (f.noteTrees n).trees[t]? = if t ∈ n.trees then some n.id else f.trees[t]? := by
  have hfold : ∀ (ts : List TreeId) (table : Std.ExtTreeMap TreeId NodeId),
      (ts.foldl (fun table t => table.insert t n.id) table)[t]? =
        if t ∈ ts then some n.id else table[t]? := by
    intro ts
    induction ts with
    | nil => simp
    | cons u ts ih =>
      intro table
      rw [List.foldl_cons, ih, Std.ExtTreeMap.getElem?_insert]
      by_cases ht : t ∈ ts
      · simp [ht]
      · simp [ht, @eq_comm _ t u]
  exact hfold n.trees f.trees

namespace Walk

variable [DecidableEq V] (g : Graph) (a : Analysis V S)

theorem step_trees (w : Walk V S) (n : Node) (t : TreeId) :
    (w.step g a n).findings.trees[t]? =
      if t ∈ n.trees then some n.id else w.findings.trees[t]? := by
  rw [← Findings.getElem?_noteTrees]
  simp only [step]
  generalize a.transfer _ n w.last.flow = outcome
  cases outcome.value <;> rfl

variable (f : Findings V S) (input : Flow S) {ns : List Node} {t : TreeId}

/-- A walk lets only its own nodes answer for trees. -/
theorem through_trees_cases {m : NodeId}
    (h : (through g a f input ns).findings.trees[t]? = some m) :
    (∃ n ∈ ns, n.id = m ∧ t ∈ n.trees) ∨ f.trees[t]? = some m := by
  induction ns using List.reverseRecOn with
  | nil => exact .inr h
  | append_singleton ns n ih =>
    rw [through_concat, step_trees] at h
    split at h
    · next ht => exact .inl ⟨n, by simp, Option.some.inj h, ht⟩
    · rcases ih h with ⟨k, hk, hid⟩ | hold
      · exact .inl ⟨k, by simp [hk], hid⟩
      · exact .inr hold

/-- A walk finds a node for every tree that it meets, and forgets none. -/
theorem mem_through_trees : t ∈ (through g a f input ns).findings.trees ↔
    (∃ n ∈ ns, t ∈ n.trees) ∨ t ∈ f.trees := by
  induction ns using List.reverseRecOn with
  | nil => simp [through]
  | append_singleton ns n ih =>
    rw [through_concat, Std.ExtTreeMap.mem_iff_isSome_getElem?, step_trees]
    by_cases ht : t ∈ n.trees
    · simp [ht]
    · simp [ht, ih]

end Walk

/-! ## Split inputs -/

/-- May the parcel make an input split? -/
def Parcel.splits : Parcel S → Bool
  | .input φ => φ.isSplit
  | .slot _ _ => true

section Splitting

variable [Store S] [DecidableEq S] {p : Pass V S} {b c : BlockId} {φ : Flow S}

/-- An input is split after a parcel has been received only if it was, or if the parcel may have
done it. -/
theorem Pass.isSplit_receive {parcel : Parcel S} (hφ : (p.receive b parcel).input? c = some φ)
    (hsplit : φ.isSplit = true) :
    (∃ old, p.input? c = some old ∧ old.isSplit = true) ∨ b = c ∧ parcel.splits = true := by
  by_cases hbc : b = c
  · cases parcel with
    | slot outcome x => exact .inr ⟨hbc, rfl⟩
    | input ψ =>
      rw [input?_receive, if_pos hbc, hbc] at hφ
      cases hold : p.input? c with
      | none =>
        rw [hold] at hφ
        obtain rfl : ψ = φ := Option.some.inj hφ
        exact .inr ⟨hbc, hsplit⟩
      | some old =>
        rw [hold] at hφ
        obtain rfl : join old ψ = φ := Option.some.inj hφ
        rw [Flow.isSplit_join, Bool.or_eq_true] at hsplit
        exact hsplit.imp (fun h => ⟨old, rfl, h⟩) fun h => ⟨hbc, h⟩
  · refine .inl ⟨φ, ?_, hsplit⟩
    cases parcel with
    | input ψ => rwa [input?_receive, if_neg hbc] at hφ
    | slot outcome x =>
      rw [receive, Setup.settle_eq] at hφ
      split at hφ
      · exact hφ
      · split at hφ <;> simpa [hbc] using hφ

/-- So it is after a row of parcels. -/
theorem Pass.isSplit_receiveAll {parcels : List (BlockId × Parcel S)}
    (hφ : (p.receiveAll parcels).input? c = some φ) (hsplit : φ.isSplit = true) :
    (∃ old, p.input? c = some old ∧ old.isSplit = true) ∨
      ∃ e ∈ parcels, e.1 = c ∧ e.2.splits = true := by
  induction parcels generalizing p with
  | nil => exact .inl ⟨φ, hφ, hsplit⟩
  | cons e parcels ih =>
    rcases ih hφ with ⟨ψ, hψ, hold⟩ | ⟨e', he', hsplits⟩
    · rcases isSplit_receive hψ hold with hbefore | hself
      · exact .inl hbefore
      · exact .inr ⟨e, List.mem_cons_self, hself⟩
    · exact .inr ⟨e', List.mem_cons_of_mem e he', hsplits⟩

omit [DecidableEq S] in
/-- What a visit sends may split an input of conditional blocks only. -/
theorem Setup.conditional_of_splits {s : Setup V S} (hg : s.graph.WellFormed)
    {last : Outcome V S} {e : BlockId × Parcel S} (he : e ∈ s.parcelsOf b last)
    (hsplits : e.2.splits = true) :
    (s.graph.block? e.1).map Block.kind = some .conditional := by
  obtain ⟨edge, -, -, block, hblock, rfl⟩ := (mem_parcelsOf hg).mp he
  rw [hblock, Option.map_some]
  congr 1
  generalize block.kind = kind at hsplits
  cases hd : s.analysis.direction with
  | forward =>
    rw [hd] at hsplits
    by_contra hkind
    cases hlabel : edge.label <;>
      simp [Outcome.sent, Outcome.sentForward, hlabel, hkind, Parcel.splits, Flow.isSplit] at hsplits
  | backward =>
    rw [hd] at hsplits
    by_contra hkind
    cases kind <;> cases hlabel : edge.label <;>
      simp_all [Outcome.sent, Outcome.sentBackward, Parcel.splits, Flow.isSplit]

end Splitting

/-! ## At any time of a run -/

/-- The tables speak of blocks and nodes in reach only, and only conditional blocks have a split
input. -/
structure Findings.About (f : Findings V S) (g : Graph) (d : Direction) : Prop where
  inputs : ∀ b, (f.inputs[b]?).isSome → g.Reaches d b
  splits : ∀ b φ, f.inputs[b]? = some φ → φ.isSplit = true →
    (g.block? b).map Block.kind = some .conditional
  values : ∀ n, (f.values[n]?).isSome → ∃ node, g.InReach d node ∧ node.id = n
  trees : ∀ t n, f.trees[t]? = some n → ∃ node, g.InReach d node ∧ node.id = n ∧ t ∈ node.trees

namespace Setup

variable [Store S] [DecidableEq S] [DecidableEq V] {s : Setup V S} {start p p' : Pass V S}
  {b : BlockId} {visits : List (BlockId × Pass V S)}

variable [LawfulJoin S] [PlainWidening S]

/-- A visit of a block in reach keeps to what is in reach. -/
theorem About.step (hg : s.graph.WellFormed) (ho : s.Orderly p)
    (hp : p.findings.About s.graph s.analysis.direction)
    (hinputs : ∀ c, (p'.input? c).isSome → s.graph.Reaches s.analysis.direction c)
    (h : s.Step b p p') : p'.findings.About s.graph s.analysis.direction := by
  obtain ⟨input, hstep⟩ := h.stepped hg ho
  have hreach : s.graph.Reaches s.analysis.direction b :=
    hp.inputs b (Option.isSome_iff_exists.mpr ⟨input, hstep.arrived⟩)
  have hnodes : ∀ n ∈ s.graph.passedNodes s.analysis.direction b,
      s.graph.InReach s.analysis.direction n := fun n hn =>
    ⟨b, hreach, Graph.mem_passedNodes.mp hn⟩
  refine ⟨hinputs, ?_, ?_, ?_⟩
  · intro c φ hφ hsplit
    obtain ⟨input', pending, q, -, -, -, -, hq, rfl⟩ := h.spell hg ho
    obtain rfl := Except.ok.inj ((deliverAll_eq_receiveAll _ _).symm.trans hq)
    rw [Pass.findings_requeueIf] at hφ
    rcases Pass.isSplit_receiveAll hφ hsplit with ⟨old, hold, hsplit⟩ | ⟨e, he, rfl, hsplits⟩
    · exact hp.splits c old ((input?_walked s b c p input' pending).symm.trans hold) hsplit
    · exact conditional_of_splits hg he hsplits
  · intro m hm
    rw [hstep.values] at hm
    by_cases hown : ∃ n ∈ s.graph.passedNodes s.analysis.direction b, n.id = m
    · obtain ⟨n, hn, hid⟩ := hown
      exact ⟨n, hnodes n hn, hid⟩
    · have hsame : (s.walkOf b p input).findings.values[m]? = p.findings.values[m]? :=
        Walk.through_values_of_not_mem _ _ _ _ fun n hn hid => hown ⟨n, hn, hid⟩
      exact hp.values m (hsame ▸ hm)
  · intro t m hm
    rw [hstep.trees] at hm
    rcases Walk.through_trees_cases _ _ _ _ hm with ⟨n, hn, hid, ht⟩ | hold
    · exact ⟨n, hnodes n hn, hid, ht⟩
    · exact hp.trees t m hold

/-- In every state of a run the tables speak of what is in reach only. -/
theorem Starts.about (hs : s.Starts start) (h : s.Reached start p) :
    p.findings.About s.graph s.analysis.direction := by
  induction h with
  | refl =>
    refine ⟨fun b hb => hs.reaches_of_input .refl hb, ?_, ?_, ?_⟩
    · intro b φ hφ hsplit
      obtain ⟨store, -, rfl⟩ := (hs.started.input b φ).mp hφ
      cases hsplit
    · intro n hn
      simp [hs.started.values] at hn
    · intro t n hn
      simp [hs.started.trees] at hn
  | tail hbefore hstep ih =>
    obtain ⟨b, hstep⟩ := hstep
    exact About.step hs.wellFormed (hs.orderly_of_reached hbefore) ih
      (fun c hc => hs.reaches_of_input (hbefore.tail ⟨b, hstep⟩) hc) hstep

/-- A run that is given up leaves the tables of some state that it has reached. -/
theorem Starts.findings_of_failure (hs : s.Starts start) {left : ℕ} (hp : s.Reached start p)
    {failure : Failure V S} (h : s.run left p = .error failure) :
    ∃ q, s.Reached start q ∧ failure.pass.findings = q.findings := by
  obtain ⟨q, b, pending, hq, -, rfl⟩ :=
    hs.failure_of_run (fun _ => .inl (.inr inferInstance)) hp h
  exact ⟨q, hq, rfl⟩

/-! ## At the end of a run -/

omit [LawfulJoin S] [PlainWidening S] in
/-- The trees of a block that has been visited are in the table. -/
theorem History.mem_trees (hs : s.Starts start) (h : s.History start visits p)
    (hb : b ∈ visits.map Prod.fst) {n : Node} (hn : n ∈ s.graph.nodesOf b) {t : TreeId}
    (ht : t ∈ n.trees) : t ∈ p.findings.trees := by
  induction h with
  | nil => cases hb
  | @concat visits p p' c hbefore hstep ih =>
    obtain ⟨input, hframe⟩ :=
      hstep.stepped hs.wellFormed (hs.orderly_of_reached hbefore.reached)
    rw [hframe.trees, walkOf, Walk.mem_through_trees]
    rw [List.map_append] at hb
    rcases List.mem_append.mp hb with hb | hb
    · exact .inr (ih hb)
    · obtain rfl : b = c := List.mem_singleton.mp hb
      exact .inl ⟨n, Graph.mem_passedNodes.mpr hn, ht⟩

end Setup

/-- The tables leave nothing out that is in reach. -/
structure Findings.Complete (f : Findings V S) (g : Graph) (d : Direction) : Prop where
  inputs : ∀ b, g.Reaches d b → (f.inputs[b]?).isSome
  trees : ∀ n, g.InReach d n → ∀ t ∈ n.trees, (f.trees[t]?).isSome

namespace Analysis

variable [Store S] [DecidableEq S] [DecidableEq V] [LawfulJoin S] [PlainWidening S]
  {a : Analysis V S} {settings : Settings} {g : Graph} {p : Pass V S}

/-- The tables of a finished run are complete. -/
theorem complete_of_solve (hg : g.WellFormed) (h : a.solve settings g = .ok p) :
    p.findings.Complete g a.direction := by
  obtain ⟨s, start, hprepare, hreached, hempty⟩ := solve_eq_ok hg h
  obtain ⟨s', start', hprepare', hsettled⟩ := a.noLostUpdate settings hg
  obtain ⟨rfl, rfl⟩ : s = s' ∧ start = start' := by simpa [hprepare] using hprepare'
  obtain ⟨hs, rfl, rfl, -⟩ := starts_of_prepare hg hprepare
  obtain ⟨visits, hvisits⟩ := Setup.exists_history hreached
  -- flow goes on from every block with an input, since none is pending any more
  have hinputs : ∀ b, s.graph.Reaches s.analysis.direction b → (p.input? b).isSome := by
    rintro b ⟨r, hr, hpath⟩
    induction hpath with
    | refl =>
      rw [← s.analysis.seedsOf_fst] at hr
      obtain ⟨⟨r, store⟩, hseed, rfl⟩ := List.mem_map.mp hr
      obtain ⟨input, hinput, -⟩ := Setup.absorbed_seed hs hreached hseed (.inr inferInstance)
      exact Option.isSome_iff_exists.mpr ⟨input, hinput⟩
    | tail _ hstep ih =>
      obtain ⟨e, he, rfl, rfl⟩ := hstep
      obtain ⟨input, hinput⟩ := Option.isSome_iff_exists.mp ih
      obtain ⟨_, _, _, -, -, -, hedges⟩ := hsettled visits p hvisits _ input hinput (hempty _)
      obtain ⟨_, arrived, -, harrived, -⟩ := hedges e he rfl
      exact Option.isSome_iff_exists.mpr ⟨arrived, harrived⟩
  refine ⟨hinputs, ?_⟩
  rintro n ⟨b, hreach, hn⟩ t ht
  obtain ⟨input, hinput⟩ := Option.isSome_iff_exists.mp (hinputs b hreach)
  obtain ⟨q, later, _, hlast, -⟩ := hsettled visits p hvisits b input hinput (hempty b)
  obtain ⟨earlier, rfl⟩ := hlast.split
  rw [← Std.ExtTreeMap.mem_iff_isSome_getElem?]
  exact hvisits.mem_trees hs (by simp) hn ht

end Analysis

/-! ## Questions about stores -/

section Questions

variable [Join S] {a : Analysis V S} {g : Graph} {p : Pass V S}

/-- Passing a block again comes to a node exactly if the node is among those passed. -/
theorem Replay.exists_around {r : Replay V S} (values : Std.ExtTreeMap NodeId V) (input : Flow S)
    {n : Node} {nodes : List Node} (h : r.graph.walk r.analysis.direction n.block = .ok nodes) :
    ∃ stores, r.around values input n = .ok stores ∧
      (stores.isSome ↔ ∃ m ∈ nodes, m.id = n.id) := by
  unfold around
  rw [h]
  simp only [bind, Except.bind]
  split
  · next hnil =>
    refine ⟨none, rfl, ?_⟩
    rw [List.dropWhile_eq_nil_iff] at hnil
    simpa using hnil
  · next m rest hcons =>
    refine ⟨_, rfl, ?_⟩
    have hsome : ¬ ∀ m ∈ nodes, decide (m.id ≠ n.id) = true := by
      rw [← List.dropWhile_eq_nil_iff, hcons]
      exact List.cons_ne_nil m rest
    simpa using hsome

/-- After a finished run the stores around a node are found exactly if the node is in reach. -/
theorem Report.exists_storesAround (hg : g.WellFormed)
    (hinputs : ∀ b, (p.findings.inputs[b]?).isSome ↔ g.Reaches a.direction b) (n : NodeId) :
    ∃ stores, (ofRun a g (.ok p)).storesAround n = .ok stores ∧
      (stores.isSome ↔ ∃ node, g.InReach a.direction node ∧ node.id = n) := by
  -- a node in reach is found under its identifier, in the block that it remembers
  have hfound : ∀ node, g.InReach a.direction node → node.id = n →
      g.node? n = some node ∧ g.Reaches a.direction node.block ∧ node ∈ g.nodesOf node.block := by
    rintro node ⟨b, hreach, hmem⟩ rfl
    obtain ⟨rfl, hnode⟩ := hg.block_of_mem_nodesOf hmem
    exact ⟨hnode, hreach, hmem⟩
  have hsilent : (∀ node, ¬ (g.InReach a.direction node ∧ node.id = n)) →
      ((none : Option (S × S)).isSome ↔ ∃ node, g.InReach a.direction node ∧ node.id = n) := by
    intro hnone
    simp only [Option.isSome_none, Bool.false_eq_true, false_iff, not_exists]
    exact hnone
  cases hnode : g.node? n with
  | none =>
    refine ⟨none, ?_, hsilent fun node hin => by simp [(hfound node hin.1 hin.2).1] at hnode⟩
    by_cases hgraph : g.id = n.graph
    · simp [storesAround, ofRun, hgraph, hnode]
    · simp [storesAround, ofRun, hgraph]
  | some node =>
    have hgraph : n.graph = g.id := (Graph.node?_eq_some_iff.mp hnode).1
    have hid := hg.id_of_node? hnode
    cases hinput : p.findings.inputs[node.block]? with
    | none =>
      refine ⟨none, by simp [storesAround, ofRun, hgraph, hnode, hinput], hsilent ?_⟩
      rintro node' ⟨hin, hid'⟩
      obtain ⟨hnode', hreach, -⟩ := hfound node' hin hid'
      obtain rfl : node = node' := Option.some.inj (hnode.symm.trans hnode')
      simpa [hinput] using (hinputs node.block).mpr hreach
    | some input =>
      have hreach := (hinputs node.block).mp (Option.isSome_iff_exists.mpr ⟨input, hinput⟩)
      obtain ⟨block, hblock⟩ := hg.exists_block_of_reaches hreach
      have hwalk : (Replay.mk g a).graph.walk (Replay.mk g a).analysis.direction node.block =
          .ok (g.passedNodes a.direction node.block) := hg.walk_eq a.direction hblock
      obtain ⟨stores, hstores, hsome⟩ := Replay.exists_around p.findings.values input hwalk
      refine ⟨stores, by simpa [storesAround, ofRun, hgraph, hnode, hinput] using hstores, ?_⟩
      rw [hsome, ← hid]
      constructor
      · rintro ⟨m, hm, hmid⟩
        exact ⟨m, ⟨node.block, hreach, Graph.mem_passedNodes.mp hm⟩, hmid⟩
      · rintro ⟨node', hin, hid'⟩
        obtain ⟨hnode', -, hmem⟩ := hfound node' hin (hid'.trans hid)
        obtain rfl : node = node' := Option.some.inj (hnode.symm.trans hnode')
        exact ⟨node, Graph.mem_passedNodes.mpr hmem, rfl⟩

end Questions

/-! ## Reports -/

namespace Report

/-- The report covers what is in reach and nothing else. -/
structure Covers [Join S] (r : Report V S) (g : Graph) (d : Direction) : Prop where
  about : r.findings.About g d
  complete : r.findings.Complete g d
  before : ∀ n, ∃ store, r.storeBefore n = .ok store ∧
    (store.isSome ↔ ∃ node, g.InReach d node ∧ node.id = n)
  after : ∀ n, ∃ store, r.storeAfter n = .ok store ∧
    (store.isSome ↔ ∃ node, g.InReach d node ∧ node.id = n)

/-- The report speaks of what is in reach only, and not about stores. -/
structure Withholds [Join S] (r : Report V S) (g : Graph) (d : Direction) : Prop where
  about : r.findings.About g d
  before : ∀ n, r.storeBefore n = .ok none
  after : ∀ n, r.storeAfter n = .ok none
  beforeTree : ∀ t, r.storeBeforeTree t = .ok none
  afterTree : ∀ t, r.storeAfterTree t = .ok none

/-- A report without replays leaves questions about stores open. -/
theorem withholds_of_replays [Join S] {r : Report V S} {g : Graph} {d : Direction}
    (habout : r.findings.About g d) (hnone : r.replays = ∅) : r.Withholds g d := by
  have hstores : ∀ n, r.storesAround n = .ok none := fun n => by simp [storesAround, hnone]
  have hbefore : ∀ n, r.storeBefore n = .ok none := fun n => by
    rw [storeBefore, hstores]
    rfl
  have hafter : ∀ n, r.storeAfter n = .ok none := fun n => by
    rw [storeAfter, hstores]
    rfl
  refine ⟨habout, hbefore, hafter, fun t => ?_, fun t => ?_⟩
  · unfold storeBeforeTree
    split
    · rfl
    · exact hbefore _
  · unfold storeAfterTree
    split
    · rfl
    · exact hafter _

end Report

namespace Analysis

variable [Store S] [DecidableEq S] [DecidableEq V]

/-- The report of a run covers what is in reach if the run has come to its end, and else speaks of
nothing that is out of reach. -/
structure ReportsReach (a : Analysis V S) (settings : Settings) (g : Graph) : Prop where
  finished : ∀ p, a.solve settings g = .ok p →
    (Report.ofRun a g (.ok p)).Covers g a.direction
  failed : ∀ failure, a.solve settings g = .error failure →
    (Report.ofRun a g (.error failure)).Withholds g a.direction

variable [LawfulJoin S] [PlainWidening S]

theorem reportsReach (a : Analysis V S) (settings : Settings) {g : Graph} (hg : g.WellFormed) :
    a.ReportsReach settings g := by
  obtain ⟨start, hprepare⟩ := a.exists_prepare hg
  obtain ⟨hs, -⟩ := starts_of_prepare hg (hprepare settings)
  have hsolve : a.solve settings g =
      Setup.run ⟨g, a, settings, g.pointsOf a.direction⟩ settings.maxVisits start := by
    rw [solve, hprepare]
  constructor
  · intro p h
    have habout : p.findings.About g a.direction :=
      hs.about (Setup.reached_of_run (hsolve.symm.trans h)).1
    have hcomplete := complete_of_solve hg h
    have hstores := Report.exists_storesAround (a := a) hg
      fun b => ⟨habout.inputs b, hcomplete.inputs b⟩
    refine ⟨habout, hcomplete, fun n => ?_, fun n => ?_⟩
    · obtain ⟨stores, hstores, hiff⟩ := hstores n
      exact ⟨stores.map Prod.fst, by rw [Report.storeBefore, hstores]; rfl, by simpa using hiff⟩
    · obtain ⟨stores, hstores, hiff⟩ := hstores n
      exact ⟨stores.map Prod.snd, by rw [Report.storeAfter, hstores]; rfl, by simpa using hiff⟩
  · intro failure h
    obtain ⟨q, hreached, htables⟩ := hs.findings_of_failure .refl (hsolve.symm.trans h)
    have habout : failure.pass.findings.About g a.direction := htables ▸ hs.about hreached
    exact Report.withholds_of_replays habout rfl

end Analysis

/-- The reports of the shipped analyses cover exactly the blocks and nodes in reach. -/
theorem reports_cover_exactly_what_flow_reaches (settings : Settings) (g : Graph) (hg : g.Built) :
    Constants.analysis.ReportsReach settings g ∧ Nullness.analysis.ReportsReach settings g ∧
      LiveLocals.analysis.ReportsReach settings g :=
  ⟨Constants.analysis.reportsReach settings hg.wellFormed,
    Nullness.analysis.reportsReach settings hg.wellFormed,
    LiveLocals.analysis.reportsReach settings hg.wellFormed⟩

/-! ## A dead block in front of a loop -/

/-- A loop of the blocks 3 and 4. Block 5 leads into it and is entered from nowhere, so flow reaches
it backward only. Its node shares a tree with a node of block 3, which does not list its first
node. -/
def deadEntry : Graph :=
  .ofSteps (.loose "")
    [.push ⟨0, 3⟩ (.literal (.integer 0)), .addBlock .regular, .addBlock .conditional,
      .addBlock .regular,
      .push ⟨0, 3⟩ (.localRead ⟨"x"⟩), .push ⟨0, 5⟩ (.literal (.integer 2)),
      .attachTree ⟨0, 1⟩ 7, .attachTree ⟨0, 2⟩ 7,
      .addEdge ⟨0, 0⟩ ⟨0, 3⟩ .unconditional, .addEdge ⟨0, 5⟩ ⟨0, 3⟩ .unconditional,
      .addEdge ⟨0, 3⟩ ⟨0, 4⟩ .unconditional, .addEdge ⟨0, 4⟩ ⟨0, 3⟩ .onTrue,
      .addEdge ⟨0, 4⟩ ⟨0, 1⟩ .onFalse]

/-- Two runs on this graph come to their ends, one in each direction, and one gives up. -/
theorem deadEntry_reports_cover_reach :
    deadEntry.Built ∧
      (∃ p, Constants.analysis.solve (.default .debug) deadEntry = .ok p ∧
        (Report.ofRun Constants.analysis deadEntry (.ok p)).Covers deadEntry .forward) ∧
      (∃ p, LiveLocals.analysis.solve (.default .debug) deadEntry = .ok p ∧
        (Report.ofRun LiveLocals.analysis deadEntry (.ok p)).Covers deadEntry .backward) ∧
      ∃ failure,
        Nullness.analysis.solve { Settings.default .debug with maxVisits := 2 } deadEntry =
          .error failure ∧
        (Report.ofRun Nullness.analysis deadEntry (.error failure)).Withholds deadEntry
          .forward := by
  have hbuilt : deadEntry.Built := Graph.built_ofSteps (by decide +kernel)
  obtain ⟨p, hp⟩ :=
    exists_eq_ok (x := Constants.analysis.solve (.default .debug) deadEntry) (by decide +kernel)
  obtain ⟨q, hq⟩ :=
    exists_eq_ok (x := LiveLocals.analysis.solve (.default .debug) deadEntry) (by decide +kernel)
  have hgivenUp : (Nullness.analysis.solve { Settings.default .debug with maxVisits := 2 }
      deadEntry).toOption.isSome = false := by
    decide +kernel
  obtain ⟨hconstants, -, hlive⟩ :=
    reports_cover_exactly_what_flow_reaches (.default .debug) deadEntry hbuilt
  obtain ⟨-, hnullness, -⟩ := reports_cover_exactly_what_flow_reaches
    { Settings.default .debug with maxVisits := 2 } deadEntry hbuilt
  refine ⟨hbuilt, ⟨p, hp, hconstants.finished p hp⟩, ⟨q, hq, hlive.finished q hq⟩, ?_⟩
  cases hfailure :
    Nullness.analysis.solve { Settings.default .debug with maxVisits := 2 } deadEntry with
  | ok p => simp [hfailure, Except.toOption] at hgivenUp
  | error failure => exact ⟨failure, rfl, hnullness.failed failure hfailure⟩

end FlowFixpoint
