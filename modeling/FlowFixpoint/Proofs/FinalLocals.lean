/-
# FlowFixpoint.Proofs.FinalLocals — the values of final locals follow their assignments.

While a node is passed it may say what an effectively final local is; its own value is recorded
afterwards, over whatever an earlier visit has left. `InStep` says that the two tables do not come
apart: a final local has an entry exactly if an assignment to it has been passed, and the entry is
what is recorded now for such an assignment. Both tables are written when the assignment is passed
again, so it does not matter whether its value rises or falls; other nodes write neither.

A store query passes a block again through the same transfers. `passNoting` passes a node with the
tables at hand, as visits do, but keeps to itself what the node says while its block is only passed
again. A query that is made in this way, `ask`, gives the answer that is given without the tables,
and leaves the tables alone.
-/
import FlowFixpoint.Proofs.ReportReach

namespace FlowFixpoint

variable {V S : Type}

/-! ## Passing nodes with the tables at hand -/

/-- Passes a node with the tables at hand. What it says about final locals is noted, unless its block
is only passed again. -/
def Analysis.passNoting (a : Analysis V S) (scene : Scene V) (f : Findings V S) (φ : Flow S)
    (n : Node) : Outcome V S × Findings V S :=
  (a.transfer scene n φ, if scene.replay then f else f.noteFinals (a.transfer scene n φ).finals)

/-- A visit passes its nodes with the tables at hand. -/
theorem Walk.step_finals [DecidableEq V] {g : Graph} {a : Analysis V S} (w : Walk V S) (n : Node) :
    (w.step g a n).findings.finals =
      (a.passNoting { graph := g, values := w.findings.values, replay := false } w.findings
        w.last.flow n).2.finals := by
  simp only [step, Analysis.passNoting, Findings.noteTrees]
  generalize a.transfer _ n w.last.flow = outcome
  cases outcome.value <;> rfl

/-- Only assignments say anything about final locals: the value they yield, if their local is final. -/
structure Analysis.NotesFinals (a : Analysis V S) : Prop where
  assigns : ∀ (scene : Scene V) (n : Node) (φ : Flow S) (x : LocalVar), n.Assigns x →
    ∃ v, (a.transfer scene n φ).value = some v ∧
      (a.transfer scene n φ).finals = if scene.graph.isEffectivelyFinal x then [(x, v)] else []
  others : ∀ (scene : Scene V) (n : Node) (φ : Flow S), (∀ x, ¬ n.Assigns x) →
    (a.transfer scene n φ).finals = []

theorem Constants.finals_equality (scene : Scene Constant) (equalOn : Bool) (l r : NodeId)
    (φ : Flow ConstantStore) : (equality scene equalOn l r φ).finals = [] := by
  unfold equality
  split
  · rfl
  · cases equalOn <;> rfl

theorem Constants.notesFinals : analysis.NotesFinals where
  assigns scene n φ x := by
    rintro ⟨m, hkind⟩
    exact ⟨operand scene m, by simp [analysis, transfer, hkind, Outcome.single]⟩
  others scene n φ hnone := by
    cases hkind : n.kind with
    | assignment x m => exact absurd ⟨m, hkind⟩ (hnone x)
    | literal l => cases l <;> simp [analysis, transfer, hkind, Outcome.single, Outcome.pass]
    | comparison op l r =>
      cases op <;>
        simp [analysis, transfer, hkind, finals_equality, Outcome.single, Outcome.pass]
    | _ => simp [analysis, transfer, hkind, Outcome.single, Outcome.pass, Outcome.keep]

theorem Nullness.finals_test (scene : Scene Nullness) (onTrue onFalse : Nullness) (l r : NodeId)
    (φ : Flow NullnessStore) : (test scene onTrue onFalse l r φ).finals = [] := by
  unfold test
  split <;> rfl

theorem Nullness.notesFinals : analysis.NotesFinals where
  assigns scene n φ x := by
    rintro ⟨m, hkind⟩
    exact ⟨(scene.value? m).getD maybeNull, by simp [analysis, transfer, hkind, Outcome.single]⟩
  others scene n φ hnone := by
    have hdereference : ∀ receiver, (dereference scene receiver φ).finals = [] := fun _ => rfl
    cases hkind : n.kind with
    | assignment x m => exact absurd ⟨m, hkind⟩ (hnone x)
    | comparison op l r => cases op <;> simp [analysis, transfer, hkind, finals_test, Outcome.single]
    | call receiver method arguments =>
      cases receiver <;> simp [analysis, transfer, hkind, hdereference, Outcome.single]
    | _ => simp [analysis, transfer, hkind, hdereference, Outcome.single, Outcome.pass, Outcome.keep]

/-! ## In step -/

/-- A final local has an entry exactly if some of the nodes passed so far assigns it, and then the
entry is what is recorded for one of those. -/
structure Findings.InStep (f : Findings V S) (g : Graph) (passed : Node → Prop) : Prop where
  entered : ∀ x, x ∈ f.finals ↔ g.isEffectivelyFinal x = true ∧ ∃ n, passed n ∧ n.Assigns x
  current : ∀ x v, f.finals[x]? = some v → ∃ n, passed n ∧ n.Assigns x ∧ f.values[n.id]? = some v

namespace Findings.InStep

variable {f f' : Findings V S} {g : Graph} {passed passed' : Node → Prop}

/-- Only the two tables and the nodes passed matter. -/
theorem congr (h : f.InStep g passed) (hfinals : f'.finals = f.finals)
    (hvalues : f'.values = f.values) (hpassed : ∀ n, passed' n ↔ passed n) :
    f'.InStep g passed' where
  entered x := by simp only [hfinals, h.entered, hpassed]
  current x v := by simpa only [hfinals, hvalues, hpassed] using h.current x v

/-- If one assignment to a final local has been passed, the entry is what is recorded for it. -/
theorem eq_of_only (h : f.InStep g passed) {x : LocalVar} (hx : g.isEffectivelyFinal x = true)
    {n : Node} (hn : passed n) (hassigns : n.Assigns x)
    (honly : ∀ k, passed k → k.Assigns x → k = n) : f.finals[x]? = f.values[n.id]? := by
  have hmem : x ∈ f.finals := (h.entered x).mpr ⟨hx, n, hn, hassigns⟩
  obtain ⟨v, hv⟩ := Option.isSome_iff_exists.mp (Std.ExtTreeMap.mem_iff_isSome_getElem?.mp hmem)
  obtain ⟨k, hk, hkx, hvalue⟩ := h.current x v hv
  rw [hv, ← honly k hk hkx, hvalue]

variable [DecidableEq V] {a : Analysis V S} {w : Walk V S} {n : Node}
  (hids : ∀ k, passed k → k.id = n.id → k = n)

include hids

/-- Passing a node leaves the values of the others alone. -/
theorem value_of_ne {k : Node} (hk : passed k) (hne : k ≠ n) :
    (w.step g a n).findings.values[k.id]? = w.findings.values[k.id]? := by
  rw [Walk.step_values, if_neg fun hid => hne (hids k hk hid.symm)]

/-- Passing an assignment to a final local writes both tables. -/
theorem step_of_final (ha : a.NotesFinals) (h : w.findings.InStep g passed) {x : LocalVar}
    (hassigns : n.Assigns x) (hfinal : g.isEffectivelyFinal x = true) :
    (w.step g a n).findings.InStep g fun k => passed k ∨ k = n := by
  obtain ⟨v, hvalue, hnoted⟩ := ha.assigns
    { graph := g, values := w.findings.values, replay := false } n w.last.flow x hassigns
  have hfinals : (w.step g a n).findings.finals = w.findings.finals.insert x v := by
    rw [Walk.step_finals, Analysis.passNoting, hnoted, if_pos hfinal]
    rfl
  have honly : ∀ y, n.Assigns y → x = y := by
    rintro y ⟨m, hkind⟩
    obtain ⟨m', hkind'⟩ := hassigns
    exact (NodeKind.assignment.inj (hkind'.symm.trans hkind)).1
  constructor
  · intro y
    rw [hfinals, Std.ExtTreeMap.mem_insert, Std.LawfulEqCmp.compare_eq_iff_eq, h.entered]
    constructor
    · rintro (rfl | ⟨hy, k, hk, hky⟩)
      · exact ⟨hfinal, n, .inr rfl, hassigns⟩
      · exact ⟨hy, k, .inl hk, hky⟩
    · rintro ⟨hy, k, hk | rfl, hky⟩
      · exact .inr ⟨hy, k, hk, hky⟩
      · exact .inl (honly y hky)
  · intro y u hu
    rw [hfinals, Std.ExtTreeMap.getElem?_insert] at hu
    by_cases hxy : x = y
    · subst hxy
      refine ⟨n, .inr rfl, hassigns, ?_⟩
      rw [Walk.step_values, if_pos rfl, Walk.step_last, hvalue]
      simpa using hu
    · obtain ⟨k, hk, hky, hold⟩ := h.current y u (by simpa [hxy] using hu)
      refine ⟨k, .inl hk, hky, ?_⟩
      rw [value_of_ne hids hk fun hkn => hxy (honly y (hkn ▸ hky)), hold]

/-- Passing any other node writes nothing that matters. -/
theorem step_of_not_final (ha : a.NotesFinals) (h : w.findings.InStep g passed)
    (hnone : ∀ x, n.Assigns x → g.isEffectivelyFinal x = false) :
    (w.step g a n).findings.InStep g fun k => passed k ∨ k = n := by
  have hnoted : (a.transfer { graph := g, values := w.findings.values, replay := false } n
      w.last.flow).finals = [] := by
    by_cases hassigns : ∃ x, n.Assigns x
    · obtain ⟨x, hx⟩ := hassigns
      obtain ⟨v, -, hnoted⟩ := ha.assigns
        { graph := g, values := w.findings.values, replay := false } n w.last.flow x hx
      rw [hnoted, hnone x hx]
      rfl
    · exact ha.others _ n _ fun x hx => hassigns ⟨x, hx⟩
  have hfinals : (w.step g a n).findings.finals = w.findings.finals := by
    rw [Walk.step_finals, Analysis.passNoting, hnoted]
    rfl
  constructor
  · intro y
    rw [hfinals, h.entered]
    constructor
    · rintro ⟨hy, k, hk, hky⟩
      exact ⟨hy, k, .inl hk, hky⟩
    · rintro ⟨hy, k, hk | rfl, hky⟩
      · exact ⟨hy, k, hk, hky⟩
      · simp [hnone y hky] at hy
  · intro y u hu
    rw [hfinals] at hu
    have hy : g.isEffectivelyFinal y = true :=
      ((h.entered y).mp (Std.ExtTreeMap.mem_iff_isSome_getElem?.mpr (by simp [hu]))).1
    obtain ⟨k, hk, hky, hold⟩ := h.current y u hu
    refine ⟨k, .inl hk, hky, ?_⟩
    have hne : k ≠ n := by
      rintro rfl
      simp [hnone y hky] at hy
    rw [value_of_ne hids hk hne, hold]

/-- Passing a node keeps the tables in step. -/
theorem step (ha : a.NotesFinals) (h : w.findings.InStep g passed) :
    (w.step g a n).findings.InStep g fun k => passed k ∨ k = n := by
  by_cases hfinal : ∃ x, n.Assigns x ∧ g.isEffectivelyFinal x = true
  · obtain ⟨x, hassigns, hx⟩ := hfinal
    exact h.step_of_final hids ha hassigns hx
  · refine h.step_of_not_final hids ha fun x hx => ?_
    by_contra hne
    exact hfinal ⟨x, hx, by simpa using hne⟩

omit hids

/-- So does a walk. -/
theorem through (ha : a.NotesFinals) (h : f.InStep g passed) (input : Flow S) {ns : List Node}
    (hids : ∀ k, passed k ∨ k ∈ ns → ∀ n ∈ ns, k.id = n.id → k = n) :
    (Walk.through g a f input ns).findings.InStep g fun k => passed k ∨ k ∈ ns := by
  induction ns using List.reverseRecOn with
  | nil => exact h.congr rfl rfl (by simp)
  | append_singleton ns n ih =>
    have hbefore := ih fun k hk m hm => hids k (hk.imp_right (by simp +contextual)) m (by simp [hm])
    rw [Walk.through_concat]
    refine (hbefore.step (fun k hk => ?_) ha).congr rfl rfl fun k => ?_
    · exact hids k (hk.imp_right (by simp +contextual)) n (by simp)
    · rw [List.mem_append, List.mem_singleton, or_assoc]

end Findings.InStep

/-! ## Between visits -/

namespace Setup

variable [Store S] [DecidableEq S] [DecidableEq V] {s : Setup V S} {start p p' : Pass V S}
  {visits : List (BlockId × Pass V S)} {b : BlockId}

/-- A step leaves the final locals as its walk does. -/
theorem Step.finals (hg : s.graph.WellFormed) (ho : s.Orderly p) (h : s.Step b p p') :
    ∃ input, p'.findings.finals = (s.walkOf b p input).findings.finals ∧
      p'.findings.values = (s.walkOf b p input).findings.values := by
  obtain ⟨input, pending, q, -, -, -, -, hq, rfl⟩ := h.spell hg ho
  refine ⟨input, ?_, ?_⟩
  all_goals
    rw [Pass.findings_requeueIf, (delivered_of_deliverAll hq).findings]
    rfl

/-- The node is listed by a block that has been visited. -/
def Visited (g : Graph) (visits : List (BlockId × Pass V S)) (n : Node) : Prop :=
  ∃ b ∈ visits.map Prod.fst, n ∈ g.nodesOf b

/-- At any time the tables are in step with the assignments of the blocks visited. -/
theorem History.inStep (hs : s.Starts start) (ha : s.analysis.NotesFinals)
    (hempty : start.findings.finals = ∅) (h : s.History start visits p) :
    p.findings.InStep s.graph (Visited s.graph visits) := by
  have hg := hs.wellFormed
  induction h with
  | nil => exact ⟨fun x => by simp [hempty, Visited], fun x v hv => by simp [hempty] at hv⟩
  | @concat visits p p' c hbefore hstep ih =>
    obtain ⟨input, hfinals, hvalues⟩ :=
      hstep.finals hg (hs.orderly_of_reached hbefore.reached)
    have hwalk : (s.walkOf c p input).findings.InStep s.graph
        fun k => Visited s.graph visits k ∨ k ∈ s.graph.passedNodes s.analysis.direction c := by
      refine ih.through ha input ?_
      rintro k (⟨b, -, hk⟩ | hk) n hn hid
      · exact hg.node_unique hk (Graph.mem_passedNodes.mp hn) hid
      · exact hg.node_unique (Graph.mem_passedNodes.mp hk) (Graph.mem_passedNodes.mp hn) hid
    refine hwalk.congr hfinals hvalues fun k => ?_
    simp [Visited, Graph.mem_passedNodes, or_and_right, exists_or]

end Setup

theorem Analysis.finals_of_prepare {a : Analysis V S} {settings : Settings} {g : Graph}
    {s : Setup V S} {start : Pass V S} (h : a.prepare settings g = .ok (s, start)) :
    start.findings.finals = ∅ := by
  obtain ⟨seeds, order, points, -, -, -, -, rfl⟩ := prepare_eq_ok h
  obtain ⟨-, -, -, hfindings, -⟩ := Pass.seedAll_rest seeds
    ({ pending := .ofOrder order } : Pass V S) (Worklist.sound_ofOrder order)
  rw [hfindings]

/-! ## Questions -/

namespace Replay

/-- Passes nodes again, with the tables at hand. -/
def passAllNoting (r : Replay V S) (f : Findings V S) (input : Flow S) (ns : List Node) :
    Flow S × Findings V S :=
  ns.foldl (fun before n =>
    let behind := r.analysis.passNoting
      { graph := r.graph, values := before.2.values, replay := true } before.2 before.1 n
    (behind.1.flow, behind.2)) (input, f)

/-- Passing nodes again gives the same flow with the tables at hand, and leaves them alone. -/
theorem passAllNoting_eq (r : Replay V S) (f : Findings V S) (input : Flow S) (ns : List Node) :
    r.passAllNoting f input ns = (r.passAll f.values input ns, f) := by
  induction ns generalizing input with
  | nil => rfl
  | cons n ns ih => exact ih _

variable [Join S]

/-- The stores around a node, found with the tables at hand. -/
def aroundNoting (r : Replay V S) (f : Findings V S) (input : Flow S) (n : Node) :
    Except Stray (Option (S × S) × Findings V S) := do
  let nodes ← r.graph.walk r.analysis.direction n.block
  match nodes.dropWhile fun m => m.id ≠ n.id with
  | [] => return (none, f)
  | m :: _ =>
    let arriving := r.passAllNoting f input (nodes.takeWhile fun m => m.id ≠ n.id)
    let leaving := r.passAllNoting arriving.2 arriving.1 [m]
    return (some (r.analysis.direction.asExecuted arriving.1.regular leaving.1.regular), leaving.2)

theorem aroundNoting_eq (r : Replay V S) (f : Findings V S) (input : Flow S) (n : Node) :
    r.aroundNoting f input n = (r.around f.values input n).map fun answer => (answer, f) := by
  unfold aroundNoting around
  cases r.graph.walk r.analysis.direction n.block with
  | error id => rfl
  | ok nodes =>
    simp only [bind, Except.bind, passAllNoting_eq]
    cases nodes.dropWhile fun m => decide (m.id ≠ n.id) with
    | nil => rfl
    | cons m rest => cases r.analysis.direction <;> rfl

end Replay

/-- A store query that passes the block of the node again with the tables of the report at hand: the
answer, and the report afterwards. -/
def Report.ask [Join S] (r : Report V S) (n : NodeId) :
    Except Stray (Option (S × S) × Report V S) :=
  match r.replays[n.graph]? with
  | none => .ok (none, r)
  | some replay =>
    match replay.graph.node? n with
    | none => .ok (none, r)
    | some node =>
      match r.findings.inputs[node.block]? with
      | none => .ok (none, r)
      | some input => (replay.aroundNoting r.findings input node).map fun answer =>
          (answer.1, { r with findings := answer.2 })

/-- The query is answered as it is without the tables, and leaves the report as it was. -/
theorem Report.ask_eq [Join S] (r : Report V S) (n : NodeId) :
    r.ask n = (r.storesAround n).map fun answer => (answer, r) := by
  cases hreplay : r.replays[n.graph]? with
  | none =>
    simp only [ask, storesAround, hreplay]
    rfl
  | some replay =>
    cases hnode : replay.graph.node? n with
    | none =>
      simp only [ask, storesAround, hreplay, hnode]
      rfl
    | some node =>
      cases hinput : r.findings.inputs[node.block]? with
      | none =>
        simp only [ask, storesAround, hreplay, hnode, hinput]
        rfl
      | some input =>
        simp only [ask, storesAround, hreplay, hnode, hinput, Replay.aroundNoting_eq]
        cases replay.around r.findings.values input node <;> rfl

/-! ## At every point of a run, and afterwards -/

/-- The table of final locals after some visits. A local has an entry exactly if it is marked as final
and a visited block lists an assignment to it; the entry is what is recorded now for one of these
assignments, and so for the only one if the graph lists just one. -/
structure Findings.FollowsAssignments (f : Findings V S) (g : Graph)
    (visits : List (BlockId × Pass V S)) : Prop extends f.InStep g (Setup.Visited g visits) where
  only : ∀ x n, g.isEffectivelyFinal x = true → Setup.Visited g visits n → n.Assigns x →
    (∀ b, ∀ k ∈ g.nodesOf b, k.Assigns x → k = n) → f.finals[x]? = f.values[n.id]?

namespace Analysis

variable [Store S] [DecidableEq S] [DecidableEq V]

/-- Final locals follow their assignments throughout a run. Its report is left with the tables of
some point of it, also if the run is given up, and no store query changes the report. -/
def FinalsFollow (a : Analysis V S) (settings : Settings) (g : Graph) : Prop :=
  ∃ s start, a.prepare settings g = .ok (s, start) ∧
    (∀ visits p, s.History start visits p → p.findings.FollowsAssignments g visits) ∧
    (∃ visits p, s.History start visits p ∧
      (Report.ofRun a g (a.solve settings g)).findings = p.findings) ∧
    ∀ n, (Report.ofRun a g (a.solve settings g)).ask n =
      ((Report.ofRun a g (a.solve settings g)).storesAround n).map fun answer =>
        (answer, Report.ofRun a g (a.solve settings g))

variable [LawfulJoin S] [PlainWidening S] {a : Analysis V S} {settings : Settings} {g : Graph}

theorem exists_history_of_report {s : Setup V S} {start : Pass V S} (hg : g.WellFormed)
    (hprepare : a.prepare settings g = .ok (s, start)) :
    ∃ visits p, s.History start visits p ∧
      (Report.ofRun a g (a.solve settings g)).findings = p.findings := by
  obtain ⟨hs, -⟩ := starts_of_prepare hg hprepare
  have hsolve : a.solve settings g = s.run settings.maxVisits start := by rw [solve, hprepare]
  rw [hsolve]
  cases hrun : s.run settings.maxVisits start with
  | ok p =>
    obtain ⟨visits, hvisits⟩ := Setup.exists_history (Setup.reached_of_run hrun).1
    exact ⟨visits, p, hvisits, rfl⟩
  | error failure =>
    obtain ⟨q, hreached, hfindings⟩ := hs.findings_of_failure .refl hrun
    obtain ⟨visits, hvisits⟩ := Setup.exists_history hreached
    exact ⟨visits, q, hvisits, hfindings⟩

theorem NotesFinals.finalsFollow (ha : a.NotesFinals) (settings : Settings) (hg : g.WellFormed) :
    a.FinalsFollow settings g := by
  obtain ⟨start, hprepare⟩ := a.exists_prepare hg
  obtain ⟨hs, -⟩ := starts_of_prepare hg (hprepare settings)
  refine ⟨_, start, hprepare settings, ?_, exists_history_of_report hg (hprepare settings),
    Report.ask_eq _⟩
  intro visits p hvisits
  have hstep := hvisits.inStep hs ha (finals_of_prepare (hprepare settings))
  refine ⟨hstep, fun x n hx hn hassigns honly => hstep.eq_of_only hx hn hassigns ?_⟩
  rintro k ⟨b, -, hk⟩ hkx
  exact honly b k hk hkx

end Analysis

/-- For constant propagation and nullness, final locals follow their assignments. -/
theorem final_locals_follow_assignments (settings : Settings) (g : Graph) (hg : g.Built) :
    Constants.analysis.FinalsFollow settings g ∧ Nullness.analysis.FinalsFollow settings g :=
  ⟨Constants.notesFinals.finalsFollow settings hg.wellFormed,
    Nullness.notesFinals.finalsFollow settings hg.wellFormed⟩

/-- Round the loop of block 4 the only assignment to `x` yields 0 at first and then nothing known;
`y` is assigned before the loop and, although marked as final, again behind it. -/
def countedFinals : Graph :=
  .ofSteps (.loose "")
    [.addBlock .regular, .addBlock .regular, .addBlock .conditional, .addBlock .regular,
      .push ⟨0, 3⟩ (.literal (.integer 0)), .push ⟨0, 3⟩ (.assignment ⟨"i"⟩ ⟨0, 0⟩),
      .push ⟨0, 3⟩ (.assignment ⟨"y"⟩ ⟨0, 0⟩),
      .push ⟨0, 4⟩ (.localRead ⟨"i"⟩), .push ⟨0, 4⟩ (.assignment ⟨"x"⟩ ⟨0, 3⟩),
      .push ⟨0, 4⟩ (.literal (.integer 1)), .push ⟨0, 4⟩ (.arithmetic .add ⟨0, 3⟩ ⟨0, 5⟩),
      .push ⟨0, 4⟩ (.assignment ⟨"i"⟩ ⟨0, 6⟩), .push ⟨0, 6⟩ (.assignment ⟨"y"⟩ ⟨0, 5⟩),
      .addEdge ⟨0, 0⟩ ⟨0, 3⟩ .unconditional, .addEdge ⟨0, 3⟩ ⟨0, 4⟩ .unconditional,
      .addEdge ⟨0, 4⟩ ⟨0, 5⟩ .unconditional, .addEdge ⟨0, 5⟩ ⟨0, 4⟩ .onTrue,
      .addEdge ⟨0, 5⟩ ⟨0, 6⟩ .onFalse, .addEdge ⟨0, 6⟩ ⟨0, 1⟩ .unconditional,
      .markFinal ⟨"x"⟩, .markFinal ⟨"y"⟩]

theorem countedFinals_built : countedFinals.Built := Graph.built_ofSteps (by decide +kernel)

/-- At the end constant propagation has followed `x` to an unknown value and `y` to its second
assignment. -/
theorem countedFinals_follow_assignments :
    countedFinals.Built ∧
      (Constants.analysis.solve (.default .debug) countedFinals).toOption.map (fun p =>
        (p.findings.finals[(⟨"x"⟩ : LocalVar)]?, p.findings.finals[(⟨"y"⟩ : LocalVar)]?,
          p.findings.finals[(⟨"i"⟩ : LocalVar)]?)) = some (some .top, some (.known 1), none) ∧
      Constants.analysis.FinalsFollow (.default .debug) countedFinals ∧
      Nullness.analysis.FinalsFollow (.default .debug) countedFinals :=
  ⟨countedFinals_built, by decide +kernel,
    final_locals_follow_assignments (.default .debug) countedFinals countedFinals_built⟩

end FlowFixpoint
