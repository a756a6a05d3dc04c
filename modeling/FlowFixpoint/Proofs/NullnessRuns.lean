/-
# FlowFixpoint.Proofs.NullnessRuns — when nullness accounts for the runs of a block.

A run of a block is given by what its nodes yield one after the other. The walk accounts for the run
if the values it records and the join of its stores allow what the run has computed, and it decides
the run if one of its stores covers the locals, behind an equality test the store of the outcome
that the run has decided.

Dereferences and tests put down for a local what they have learned about a node that has read it. If
the local has been assigned since, that may be false. A false fact of a dereference stays in both
stores, and nothing else makes the walk account for a run wrongly. What a test can spoil is the
stores of its two outcomes, by a false fact, or because the arriving flow was split by an earlier
test, whose outcomes are not its own.
-/
import FlowFixpoint.Proofs.NullnessFacts

namespace FlowFixpoint.Nullness

variable {ρ : Type}

/-! ## Pending splits -/

/-- Is the flow split behind the nodes, if one store comes in? A read leaves it as it is, a test
that puts down facts splits it, and every other node joins it. -/
def pending (g : Graph) (ns : List Node) : Bool :=
  ns.foldl (fun split n => match n.kind with
    | .localRead _ => split
    | kind => kind.isEquality && (about? g kind).isSome) false

theorem pending_concat (g : Graph) (ns : List Node) (n : Node) :
    pending g (ns ++ [n]) = match n.kind with
      | .localRead _ => pending g ns
      | kind => kind.isEquality && (about? g kind).isSome := by
  rw [pending, List.foldl_append]
  rfl

theorem isSplit_transfer {ns : List Node} {n : Node} {scene : Scene Nullness}
    {φ : Flow NullnessStore} (h : φ.isSplit = pending scene.graph ns) :
    (transfer scene n φ).flow.isSplit = pending scene.graph (ns ++ [n]) := by
  rw [pending_concat]
  split
  · next x hkind =>
    simp only [transfer, hkind, Outcome.keep]
    exact h
  · next hread =>
    cases passing scene.graph n with
    | read x hkind => exact absurd hkind (hread x)
    | assign x m hkind hflow =>
      rw [hflow, hkind]
      rfl
    | test x hequality habout hflow =>
      rw [hflow scene φ rfl, hequality, habout]
      rfl
    | dereference x hequality habout hflow =>
      rw [hflow scene φ rfl, hequality]
      rfl
    | join habout _ _ hflow =>
      rw [hflow scene φ rfl, habout, Option.isSome_none, Bool.and_false]
      rfl

/-! ## Runs of a block -/

/-- A block of a graph whose nodes come after their operands, a store that comes in, and a run of
its nodes from locals that the store covers. -/
structure BlockRun (ρ : Type) where
  graph : Graph
  block : BlockId
  findings : Findings Nullness NullnessStore
  store : NullnessStore
  start : Machine (Option ρ)
  /-- The nodes with what they yield. -/
  steps : List (Node × Datum (Option ρ))
  built : graph.Built
  nodes : graph.nodesOf block = steps.map Prod.fst
  operands_first : Constants.OperandsFirst graph block
  /-- Nothing is recorded for nodes that have no value. -/
  silent : ∀ k ∈ graph.nodesOf block, (∀ scene φ, (analysis.transfer scene k φ).value = none) →
    findings.values[k.id]? = none
  covered : Covers store start.locals
  runs : start.RunsSafely steps

namespace BlockRun

variable (r : BlockRun ρ)

/-- The walk of the nodes that have run. -/
def walk (done : List (Node × Datum (Option ρ))) : Walk Nullness NullnessStore :=
  .through r.graph analysis r.findings (.single r.store) (done.map Prod.fst)

/-- What the run has computed behind them. -/
def machine (done : List (Node × Datum (Option ρ))) : Machine (Option ρ) := r.start.afterAll done

/-- At every point of the run. -/
def Throughout (p : List (Node × Datum (Option ρ)) → Prop) : Prop :=
  ∀ done rest, r.steps = done ++ rest → p done

/-- Before every node of the run. -/
def AtEachNode (p : List (Node × Datum (Option ρ)) → Node → Prop) : Prop :=
  ∀ before n v rest, r.steps = before ++ (n, v) :: rest → p before n

/-- The walk accounts for the run: the values that it has recorded allow the results, and the join
of its stores covers the locals. -/
structure Accounts (done : List (Node × Datum (Option ρ))) : Prop where
  values : ∀ n v, (n, v) ∈ done → ∀ u, (r.walk done).findings.values[n.id]? = some u → Allows u v
  regular : Covers (r.walk done).last.flow.regular (r.machine done).locals

/-- The walk decides the run: one of its stores covers the locals, and behind an equality test it is
the store of the outcome of the test. -/
structure Decides (done : List (Node × Datum (Option ρ))) : Prop where
  covered : ∃ outcome, Covers ((r.walk done).last.flow.side outcome) (r.machine done).locals
  decided : ∀ before n v, done = before ++ [(n, v)] → n.kind.isEquality = true →
    ∀ outcome, (r.machine before).Verdict n.kind outcome →
      Covers ((r.walk done).last.flow.side outcome) (r.machine done).locals

/-- The fact that a node puts down for a local holds of the local. -/
def FactAt (before : List (Node × Datum (Option ρ))) (n : Node) : Prop :=
  ∀ outcome, (r.machine before).Verdict n.kind outcome →
    ∀ x, about? r.graph n.kind = some x → ∀ v, (r.machine before).locals x = some v →
      Allows (learned n.kind outcome) v

/-- The store that a test goes by for its outcome covers the locals other than the tested one. -/
def OthersAt (before : List (Node × Datum (Option ρ))) (n : Node) : Prop :=
  n.kind.isEquality = true → ∀ outcome, (r.machine before).Verdict n.kind outcome →
    ∀ x, about? r.graph n.kind = some x → ∀ y v, y ≠ x → (r.machine before).locals y = some v →
      ∃ u, ((r.walk before).last.flow.side outcome).get? y = some u ∧ Allows u v

/-- The facts of all dereferences hold. -/
def DereferencesHold : Prop :=
  r.AtEachNode fun before n => n.kind.isEquality = false → r.FactAt before n

/-- The facts of all dereferences and tests hold. -/
def FactsHold : Prop := r.AtEachNode r.FactAt

/-- The store of its outcome that arrives at a test covers the other locals. -/
def OthersCovered : Prop := r.AtEachNode r.OthersAt

/-- No local is assigned between a read of it and a dereference or test that the read is the subject
of. -/
def ReadsCurrent : Prop :=
  ∀ (pre : List Node) (k : Node) (mid : List Node) (n : Node) (post : List Node),
    r.graph.nodesOf r.block = pre ++ k :: (mid ++ n :: post) →
      subject? r.graph n.kind = some k.id → ∀ x, k.kind = .localRead x → ∀ j ∈ mid, ¬ j.Assigns x

/-- One store arrives at every test that puts down facts: the last node before it that is not a read
is no such test. -/
def OneStoreEach : Prop :=
  ∀ pre n post, r.graph.nodesOf r.block = pre ++ n :: post → n.kind.isEquality = true →
    (about? r.graph n.kind).isSome = true → pending r.graph pre = false

variable {r} {before done rest : List (Node × Datum (Option ρ))} {n : Node}
  {v : Datum (Option ρ)}

theorem walk_concat : r.walk (before ++ [(n, v)]) = (r.walk before).step r.graph analysis n := by
  rw [walk, List.map_append]
  exact Walk.through_concat _ _ _ _

theorem flow_concat :
    (r.walk (before ++ [(n, v)])).last.flow =
      (transfer ⟨r.graph, (r.walk before).findings.values, false⟩ n
        (r.walk before).last.flow).flow := by
  rw [walk_concat, Walk.step_last]
  rfl

theorem machine_concat : r.machine (before ++ [(n, v)]) = (r.machine before).after n v :=
  r.start.afterAll_concat before n v

/-- What holds at first and is kept by every node holds at every point. -/
theorem throughout {p : List (Node × Datum (Option ρ)) → Prop} (hstart : p [])
    (hstep : ∀ before n v rest, r.steps = before ++ (n, v) :: rest → p before →
      p (before ++ [(n, v)])) : r.Throughout p := by
  intro done
  induction done using List.reverseRecOn with
  | nil => exact fun _ _ => hstart
  | append_singleton done step ih =>
    intro rest hsplit
    have hsplit' : r.steps = done ++ step :: rest := by simp [hsplit]
    exact hstep done step.1 step.2 rest hsplit' (ih _ hsplit')

theorem isSplit_walk : ∀ done : List (Node × Datum (Option ρ)),
    (r.walk done).last.flow.isSplit = pending r.graph (done.map Prod.fst) := by
  intro done
  induction done using List.reverseRecOn with
  | nil => rfl
  | append_singleton done step ih =>
    rw [flow_concat, List.map_append]
    exact isSplit_transfer ih

/-! ## Results -/

theorem nodes_split (hsplit : r.steps = before ++ (n, v) :: rest) :
    r.graph.nodesOf r.block = before.map Prod.fst ++ n :: rest.map Prod.fst := by
  rw [r.nodes, hsplit, List.map_append, List.map_cons]

/-- Nodes that have run have another identifier than the next one. -/
theorem id_ne (hsplit : r.steps = before ++ (n, v) :: rest) {step : Node × Datum (Option ρ)}
    (hstep : step ∈ before) : step.1.id ≠ n.id :=
  r.built.wellFormed.id_ne_of_split (nodes_split hsplit) (List.mem_map_of_mem hstep)
    List.mem_cons_self

/-- The next node yields what it may. -/
theorem yieldsSafely (hsplit : r.steps = before ++ (n, v) :: rest) :
    (r.machine before).YieldsSafely n.kind v := by
  have hruns := r.runs
  rw [hsplit] at hruns
  exact hruns.yieldsSafely

/-- Every node that has run still has its result. -/
theorem results_machine (hsplit : r.steps = before ++ (n, v) :: rest ++ done) :
    (r.machine (before ++ (n, v) :: rest)).results n.id = some v := by
  have hnodes : r.graph.nodesOf r.block =
      (before.map Prod.fst ++ [n]) ++ (rest.map Prod.fst ++ done.map Prod.fst) := by
    simp [r.nodes, hsplit]
  have hlater : ∀ step ∈ rest, n.id ≠ step.1.id := fun step hstep =>
    r.built.wellFormed.id_ne_of_split hnodes (by simp)
      (List.mem_append_left _ (List.mem_map_of_mem hstep))
  rw [machine, List.append_cons, Machine.afterAll_append, Machine.results_afterAll _ hlater,
    Machine.afterAll_concat, Machine.results_after_self]

/-- An operand of the next node has run. -/
theorem exists_operand (hsplit : r.steps = before ++ (n, v) :: rest) {m : NodeId}
    (hm : m ∈ n.kind.operands) : ∃ pre k w mid, before = pre ++ (k, w) :: mid ∧ k.id = m ∧
      (r.machine before).results m = some w := by
  obtain ⟨k, hk, rfl⟩ := r.operands_first _ n _ (nodes_split hsplit) m hm
  obtain ⟨⟨k, w⟩, hmem, rfl⟩ := List.mem_map.mp hk
  obtain ⟨pre, mid, rfl⟩ := List.append_of_mem hmem
  exact ⟨pre, k, w, mid, rfl, rfl, results_machine (by rw [hsplit])⟩

/-- What has been recorded for an operand allows its result. -/
theorem Accounts.operand (h : r.Accounts before) (hsplit : r.steps = before ++ (n, v) :: rest)
    {m : NodeId} (hm : m ∈ reads n.kind) : ∃ w, (r.machine before).results m = some w ∧
      ∀ u, (r.walk before).findings.values[m]? = some u → Allows u w := by
  obtain ⟨pre, k, w, mid, hbefore, rfl, hw⟩ :=
    exists_operand hsplit (reads_subset_operands n.kind hm)
  exact ⟨w, hw, h.values k w (by simp [hbefore])⟩

/-- What is recorded for the next node allows what it yields. -/
theorem Accounts.value (h : r.Accounts before) (hsplit : r.steps = before ++ (n, v) :: rest)
    {u : Nullness} (hu : (r.walk (before ++ [(n, v)])).findings.values[n.id]? = some u) :
    Allows u v := by
  rw [walk_concat, Walk.step_values, if_pos rfl, Walk.step_last] at hu
  cases hvalue : (analysis.transfer ⟨r.graph, (r.walk before).findings.values, false⟩ n
      (r.walk before).last.flow).value with
  | some u' =>
    rw [hvalue] at hu
    obtain rfl := Option.some.inj hu
    exact allows_of_yieldsSafely (fun m hm => h.operand hsplit hm) h.regular
      (yieldsSafely hsplit) hvalue
  | none =>
    -- the node never has a value, and nothing was recorded for it
    have hsilent : r.findings.values[n.id]? = none := by
      refine r.silent n (by simp [nodes_split hsplit]) fun scene φ => ?_
      rw [← Option.not_isSome_iff_eq_none, readsOnly.valued scene _ n φ, hvalue]
      simp
    have hold : (r.walk before).findings.values[n.id]? = none := by
      rw [← hsilent]
      refine Walk.through_values_of_not_mem _ _ _ _ fun k hk => ?_
      obtain ⟨step, hstep, rfl⟩ := List.mem_map.mp hk
      exact id_ne hsplit hstep
    rw [hvalue, hold] at hu
    cases hu

/-! ## Steps -/

/-- Only assignments change locals. -/
theorem locals_concat (hassigns : ∀ x, ¬ n.Assigns x) :
    (r.machine (before ++ [(n, v)])).locals = (r.machine before).locals := by
  rw [machine_concat]
  exact funext fun x => (r.machine before).locals_after_of_not_assigns v (hassigns x)

theorem not_assigns_of_about? {x : LocalVar} (h : about? r.graph n.kind = some x) (y : LocalVar) :
    ¬ n.Assigns y := by
  rintro ⟨m, hkind⟩
  rw [hkind] at h
  cases h

/-- One more node keeps the walk accounting for the run, unless it is a dereference that puts down
something false. -/
theorem Accounts.concat (h : r.Accounts before) (hsplit : r.steps = before ++ (n, v) :: rest)
    (hfact : n.kind.isEquality = false → r.FactAt before n) :
    r.Accounts (before ++ [(n, v)]) := by
  constructor
  · intro k w hk u hu
    rcases List.mem_append.mp hk with hk | hk
    · rw [walk_concat, Walk.step_values, if_neg (Ne.symm (id_ne hsplit hk))] at hu
      exact h.values k w hk u hu
    · obtain ⟨rfl, rfl⟩ := Prod.mk.inj (List.mem_singleton.mp hk)
      exact h.value hsplit hu
  · rw [flow_concat]
    have hregular := h.regular
    cases passing r.graph n with
    | read x hkind hflow =>
      rw [hflow, locals_concat (by simp [Node.Assigns, hkind])]
      exact hregular
    | assign x m hkind hflow =>
      obtain ⟨w, hw, hallows⟩ := h.operand hsplit (m := m) (by simp [hkind, reads])
      obtain ⟨hyields, -⟩ := yieldsSafely hsplit
      simp only [Machine.Yields, hkind] at hyields
      obtain rfl : w = v := Option.some.inj (hw.symm.trans hyields)
      rw [hflow, machine_concat]
      refine CoveredBy.set hregular ?_ fun y hy => ?_
      · intro w' hw'
        obtain rfl : w = w' := by simpa [Machine.after, hkind] using hw'
        cases hvalue : (Scene.value? ⟨r.graph, (r.walk before).findings.values, false⟩ m) with
        | none => trivial
        | some u => exact hallows u hvalue
      · simp [Machine.after, hkind, hy]
    | test x hequality habout hflow =>
      rw [hflow _ _ rfl, locals_concat (not_assigns_of_about? habout)]
      exact covers_regular_of_test hequality hregular
    | dereference x hequality habout hflow =>
      rw [hflow _ _ rfl, locals_concat (not_assigns_of_about? habout)]
      refine CoveredBy.set hregular (fun w hw => ?_) fun _ _ => rfl
      rw [← learned_of_not_equality hequality true]
      exact hfact hequality true (Machine.verdict_of_not_equality hequality _ true) x habout w hw
    | join _ hassigns _ hflow =>
      rw [hflow _ _ rfl, locals_concat hassigns]
      exact hregular

/-- Where there is only one store, it covers for both outcomes. -/
theorem Accounts.covers_of_single (h : r.Accounts done)
    (hsingle : (r.walk done).last.flow.isSplit = false) (outcome : Bool) :
    Covers ((r.walk done).last.flow.side outcome) (r.machine done).locals := by
  have hregular := h.regular
  cases hflow : (r.walk done).last.flow with
  | single store =>
    rw [hflow] at hregular
    rw [Flow.side_single]
    exact hregular
  | split t f =>
    rw [hflow] at hsingle
    cases hsingle

theorem Accounts.decides_of_single (h : r.Accounts done)
    (hsingle : (r.walk done).last.flow.isSplit = false) : r.Decides done :=
  ⟨⟨true, h.covers_of_single hsingle true⟩, fun _ _ _ _ _ outcome _ =>
    h.covers_of_single hsingle outcome⟩

/-- Behind a test that puts down a fact, the store of its outcome covers exactly if the fact holds
and the store covered the other locals. -/
theorem covers_test_iff {x : LocalVar} (hequality : n.kind.isEquality = true)
    (habout : about? r.graph n.kind = some x) (outcome : Bool) :
    Covers ((r.walk (before ++ [(n, v)])).last.flow.side outcome)
        (r.machine (before ++ [(n, v)])).locals ↔
      (∀ w, (r.machine before).locals x = some w → Allows (learned n.kind outcome) w) ∧
        ∀ y w, y ≠ x → (r.machine before).locals y = some w →
          ∃ u, ((r.walk before).last.flow.side outcome).get? y = some u ∧ Allows u w := by
  rw [flow_concat, locals_concat (not_assigns_of_about? habout), side_of_test hequality habout]
  constructor
  · intro h
    refine ⟨fun w hw => ?_, fun y w hy hw => ?_⟩
    · obtain ⟨u, hu, hallows⟩ := h x w hw
      rw [Env.get?_set, if_pos rfl] at hu
      exact Option.some.inj hu ▸ hallows
    · obtain ⟨u, hu, hallows⟩ := h y w hw
      rw [Env.get?_set, if_neg (Ne.symm hy)] at hu
      exact ⟨u, hu, hallows⟩
  · rintro ⟨hfact, hothers⟩ y w hw
    rw [Env.get?_set]
    by_cases hxy : x = y
    · subst hxy
      exact ⟨_, if_pos rfl, hfact w hw⟩
    · rw [if_neg hxy]
      exact hothers y w (Ne.symm hxy) hw

/-- One more node keeps the walk deciding the run, unless it is a test that puts down something
false or goes by a store that does not cover the other locals. -/
theorem Decides.concat (h : r.Decides before) (haccounts : r.Accounts (before ++ [(n, v)]))
    (hfact : r.FactAt before n) (hothers : r.OthersAt before n) :
    r.Decides (before ++ [(n, v)]) := by
  cases passing r.graph n with
  | read x hkind hflow =>
    refine ⟨?_, ?_⟩
    · rw [flow_concat, hflow, locals_concat (by simp [Node.Assigns, hkind])]
      exact h.covered
    · intro before' n' v' hlast hequality
      obtain ⟨-, hstep⟩ := List.append_singleton_inj.mp hlast
      obtain ⟨rfl, -⟩ := Prod.mk.inj hstep
      simp [hkind, NodeKind.isEquality] at hequality
  | test x hequality habout _ =>
    have hside : ∀ outcome, (r.machine before).Verdict n.kind outcome →
        Covers ((r.walk (before ++ [(n, v)])).last.flow.side outcome)
          (r.machine (before ++ [(n, v)])).locals := fun outcome hverdict =>
      (covers_test_iff hequality habout outcome).mpr
        ⟨hfact outcome hverdict x habout, hothers hequality outcome hverdict x habout⟩
    obtain ⟨outcome, hverdict⟩ := (r.machine before).exists_verdict n.kind
    refine ⟨⟨outcome, hside outcome hverdict⟩, ?_⟩
    intro before' n' v' hlast _
    obtain ⟨rfl, hstep⟩ := List.append_singleton_inj.mp hlast
    obtain ⟨rfl, -⟩ := Prod.mk.inj hstep
    exact hside
  | assign x m _ hflow =>
    refine haccounts.decides_of_single ?_
    rw [flow_concat, hflow]
    rfl
  | dereference x _ _ hflow =>
    refine haccounts.decides_of_single ?_
    rw [flow_concat, hflow _ _ rfl]
    rfl
  | join _ _ _ hflow =>
    refine haccounts.decides_of_single ?_
    rw [flow_concat, hflow _ _ rfl]
    rfl

/-! ## Whole runs -/

theorem accounts_nil : r.Accounts [] where
  values _ _ hmem := absurd hmem List.not_mem_nil
  regular := r.covered

/-- The walk accounts for a run at every point exactly if the facts of its dereferences hold. -/
theorem accounts_iff : r.Throughout r.Accounts ↔ r.DereferencesHold := by
  constructor
  · intro h before n v rest hsplit hequality outcome _ x habout w hw
    have hregular := (h (before ++ [(n, v)]) rest (by simp [hsplit])).regular
    rw [flow_concat, locals_concat (not_assigns_of_about? habout),
      flow_of_dereference hequality habout] at hregular
    obtain ⟨u, hu, hallows⟩ := hregular x w hw
    have hset : ((r.walk before).last.flow.regular.set x nonNull).get? x = some u := hu
    rw [Env.get?_set, if_pos rfl] at hset
    rw [learned_of_not_equality hequality]
    exact Option.some.inj hset ▸ hallows
  · intro h
    exact throughout accounts_nil fun before n v rest hsplit haccounts =>
      haccounts.concat hsplit (h before n v rest hsplit)

/-- It also decides the run exactly if the facts of the tests hold as well and their stores cover
the other locals. -/
theorem accounts_and_decides_iff :
    r.Throughout (fun done => r.Accounts done ∧ r.Decides done) ↔
      r.FactsHold ∧ r.OthersCovered := by
  constructor
  · intro h
    have hdereferences := accounts_iff.mp fun done rest hsplit => (h done rest hsplit).1
    have htests : ∀ before n v rest, r.steps = before ++ (n, v) :: rest →
        n.kind.isEquality = true → ∀ outcome, (r.machine before).Verdict n.kind outcome →
          Covers ((r.walk (before ++ [(n, v)])).last.flow.side outcome)
            (r.machine (before ++ [(n, v)])).locals := fun before n v rest hsplit =>
      (h (before ++ [(n, v)]) rest (by simp [hsplit])).2.decided before n v rfl
    refine ⟨?_, ?_⟩
    · intro before n v rest hsplit
      cases hequality : n.kind.isEquality with
      | false => exact hdereferences before n v rest hsplit hequality
      | true =>
        intro outcome hverdict x habout
        have hcovers := htests before n v rest hsplit hequality outcome hverdict
        exact ((covers_test_iff hequality habout outcome).mp hcovers).1
    · intro before n v rest hsplit hequality outcome hverdict x habout
      have hcovers := htests before n v rest hsplit hequality outcome hverdict
      exact ((covers_test_iff hequality habout outcome).mp hcovers).2
  · rintro ⟨hfacts, hothers⟩
    refine throughout ⟨accounts_nil, accounts_nil.decides_of_single rfl⟩ ?_
    rintro before n v rest hsplit ⟨haccounts, hdecides⟩
    have hfact := hfacts before n v rest hsplit
    have haccounts' := haccounts.concat hsplit fun _ => hfact
    exact ⟨haccounts', hdecides.concat haccounts' hfact (hothers before n v rest hsplit)⟩

/-! ## Sufficient conditions -/

/-- Where one store arrives at every test, it covers the other locals too. -/
theorem othersCovered (hone : r.OneStoreEach) (hdereferences : r.DereferencesHold) :
    r.OthersCovered := by
  intro before n v rest hsplit hequality outcome _ x habout y w _ hw
  have haccounts := accounts_iff.mpr hdereferences before ((n, v) :: rest) hsplit
  have hsingle := hone _ n _ (nodes_split hsplit) hequality (by rw [habout]; rfl)
  rw [← isSplit_walk] at hsingle
  exact haccounts.covers_of_single hsingle outcome y w hw

/-- The literal `null` has that for its result. -/
theorem results_of_isNullLiteral (hsplit : r.steps = before ++ (n, v) :: rest) {m : NodeId}
    (hm : m ∈ n.kind.operands) (hnull : r.graph.isNullLiteral m = true) :
    (r.machine before).results m = some .null := by
  obtain ⟨pre, k, w, mid, rfl, rfl, hw⟩ := exists_operand hsplit hm
  have hkind := r.built.wellFormed.kind_of_isNullLiteral
    (show k ∈ r.graph.nodesOf r.block by simp [r.nodes, hsplit]) hnull
  have hturn : r.steps = pre ++ (k, w) :: (mid ++ (n, v) :: rest) := by simp [hsplit]
  obtain ⟨-, hsafe⟩ := yieldsSafely hturn
  simp only [hkind] at hsafe
  rw [hw, hsafe]

/-- A subject that is a read, and that no assignment has overtaken, still has its local's value. -/
theorem ReadsCurrent.locals_eq (hcurrent : r.ReadsCurrent)
    (hsplit : r.steps = before ++ (n, v) :: rest) {m : NodeId} {x : LocalVar}
    (hsubject : subject? r.graph n.kind = some m) (hread : r.graph.localRead? m = some x) :
    (r.machine before).locals x = (r.machine before).results m := by
  obtain ⟨pre, k, w, mid, rfl, rfl, hw⟩ := exists_operand hsplit (subject?_mem_operands hsubject)
  have hkind := r.built.wellFormed.kind_of_localRead?
    (show k ∈ r.graph.nodesOf r.block by simp [r.nodes, hsplit]) hread
  have hnodes : r.graph.nodesOf r.block = pre.map Prod.fst ++ k :: (mid.map Prod.fst ++
      n :: rest.map Prod.fst) := by
    simp [r.nodes, hsplit]
  have hfree : ∀ step ∈ (k, w) :: mid, ¬ step.1.Assigns x := by
    refine List.forall_mem_cons.mpr ⟨by simp [Node.Assigns, hkind], fun step hstep => ?_⟩
    exact hcurrent _ k _ n _ hnodes hsubject x hkind step.1 (List.mem_map_of_mem hstep)
  have hturn : r.steps = pre ++ (k, w) :: (mid ++ (n, v) :: rest) := by simp [hsplit]
  obtain ⟨hyields, -⟩ := yieldsSafely hturn
  simp only [Machine.Yields, hkind] at hyields
  rw [hw, machine, Machine.afterAll_append, Machine.locals_afterAll _ hfree]
  exact hyields

/-- Where no subject has been overtaken, all facts hold. -/
theorem factsHold (hcurrent : r.ReadsCurrent) : r.FactsHold := by
  intro before n v rest hsplit outcome hverdict x habout w hw
  obtain ⟨m, hsubject, hread⟩ := Option.bind_eq_some_iff.mp habout
  have hm : (r.machine before).results m = some w := by
    rw [← hcurrent.locals_eq hsplit hsubject hread, hw]
  exact allows_learned (yieldsSafely hsplit) hsubject hm
    (fun k hk hnull => results_of_isNullLiteral hsplit hk hnull) hverdict

end BlockRun

/-- Nullness accounts for a run of a block, at every point, exactly if the facts that dereferences
put down hold of their locals, and decides it exactly if the facts of tests hold as well and each
test goes by a store that covers the other locals. All facts hold if no read is overtaken by an
assignment before it is dereferenced or tested, and if also one store arrives at every test,
nullness accounts for the run and decides it. -/
theorem nullness_sound_up_to_stale_reads (r : BlockRun ρ) :
    (r.Throughout r.Accounts ↔ r.DereferencesHold) ∧
    (r.Throughout (fun done => r.Accounts done ∧ r.Decides done) ↔
      r.FactsHold ∧ r.OthersCovered) ∧
    (r.ReadsCurrent → r.FactsHold) ∧
    (r.ReadsCurrent → r.OneStoreEach → r.Accounts r.steps ∧ r.Decides r.steps) := by
  refine ⟨BlockRun.accounts_iff, BlockRun.accounts_and_decides_iff, BlockRun.factsHold, ?_⟩
  intro hcurrent hone
  have hfacts := BlockRun.factsHold hcurrent
  have hothers := BlockRun.othersCovered hone fun before n v rest hsplit _ =>
    hfacts before n v rest hsplit
  exact BlockRun.accounts_and_decides_iff.mpr ⟨hfacts, hothers⟩ r.steps [] (by simp)

/-! ## Three blocks -/

theorem covers_initial {code : CodeUnit} {locals : LocalVar → Option (Datum (Option ρ))}
    (h : ∀ x v, locals x = some v → x ∈ code.parameters) : Covers (initial code) locals := by
  intro x v hv
  refine ⟨maybeNull, ?_, trivial⟩
  rw [initial]
  exact Env.get?_ofList_map (h x v hv) maybeNull

/-- Something that is not `null`. -/
def something : Datum (Option Unit) := .other (some ())

theorem something_ne_null : something ≠ .null := nofun

/-- Two locals have values. -/
def holding (p q : Datum (Option Unit)) : Machine (Option Unit) where
  locals x := if x = ⟨"p"⟩ then some p else if x = ⟨"q"⟩ then some q else none
  results _ := none

theorem covers_holding (p q : Datum (Option Unit)) :
    Covers (initial (.lambda [⟨"p"⟩, ⟨"q"⟩])) (holding p q).locals := by
  refine covers_initial fun x v hv => ?_
  by_contra hx
  simp only [CodeUnit.parameters, List.mem_cons, List.not_mem_nil, or_false, not_or] at hx
  simp [holding, hx.1, hx.2] at hv

/-- A graph with the nodes of some steps in one block between the entry and the exit. -/
def blockOf (steps : List (Node × Datum (Option Unit))) : Graph :=
  .ofSteps (.lambda [⟨"p"⟩, ⟨"q"⟩])
    (.addBlock .regular :: .addEdge ⟨0, 0⟩ ⟨0, 3⟩ .unconditional ::
      .addEdge ⟨0, 3⟩ ⟨0, 1⟩ .unconditional :: steps.map fun step => .push ⟨0, 3⟩ step.1.kind)

/-- The run of nodes that yield these values, from values for `p` and `q` of which nothing is
known. -/
def BlockRun.ofValues (steps : List (Node × Datum (Option Unit))) (p q : Datum (Option Unit))
    (hbuilt : (blockOf steps).Built) (hnodes : (blockOf steps).nodesOf ⟨0, 3⟩ = steps.map Prod.fst)
    (hfirst : Constants.OperandsFirst (blockOf steps) ⟨0, 3⟩)
    (hruns : (holding p q).RunsSafely steps) : BlockRun Unit where
  graph := blockOf steps
  block := ⟨0, 3⟩
  findings := {}
  store := initial (.lambda [⟨"p"⟩, ⟨"q"⟩])
  start := holding p q
  steps := steps
  built := hbuilt
  nodes := hnodes
  operands_first := hfirst
  silent _ _ _ := by simp
  covered := covers_holding p q
  runs := hruns

/-- Follows `p` along a field, after a test that it is not `null`, and tests where that has led. -/
def guardedUse : BlockRun Unit :=
  .ofValues
    [(Constants.inBlockThree 0 (.localRead ⟨"p"⟩), something),
      (Constants.inBlockThree 1 (.literal .null), .null),
      (Constants.inBlockThree 2 (.comparison .notEqual ⟨0, 0⟩ ⟨0, 1⟩), something),
      (Constants.inBlockThree 3 (.localRead ⟨"p"⟩), something),
      (Constants.inBlockThree 4 (.fieldRead ⟨0, 3⟩ "f"), .null),
      (Constants.inBlockThree 5 (.assignment ⟨"p"⟩ ⟨0, 4⟩), .null),
      (Constants.inBlockThree 6 (.localRead ⟨"p"⟩), .null),
      (Constants.inBlockThree 7 (.comparison .equal ⟨0, 6⟩ ⟨0, 1⟩), something)]
    something .null (Graph.built_ofSteps (by decide +kernel)) (by decide +kernel)
    (fun _ _ _ => (Graph.built_ofSteps (by decide +kernel)).wellFormed.forall_nodesOf
      (P := fun _ pre n _ => ∀ m ∈ n.kind.operands, ∃ k ∈ pre, k.id = m) (by decide +kernel))
    ⟨⟨rfl, trivial⟩, ⟨trivial, rfl⟩, ⟨trivial, something_ne_null⟩, ⟨rfl, trivial⟩,
      ⟨trivial, nofun⟩, ⟨rfl, trivial⟩, ⟨rfl, trivial⟩, ⟨trivial, something_ne_null⟩, trivial⟩

/-- Every read is used before its local is assigned, and the two tests are kept apart by more than
reads. -/
theorem guardedUse_sound : guardedUse.ReadsCurrent ∧ guardedUse.OneStoreEach ∧
    guardedUse.Accounts guardedUse.steps ∧ guardedUse.Decides guardedUse.steps := by
  have hcurrent : guardedUse.ReadsCurrent := by
    intro pre k mid n post hsplit hsubject x _ j hj
    -- only the literal stands between a read and its use
    have hall := guardedUse.built.wellFormed.forall_nodesOf
      (P := fun _ _ k rest => ∀ t ∈ splits rest, subject? guardedUse.graph t.2.1.kind = some k.id →
        ∀ j ∈ t.1, j.kind = .literal .null) (by decide +kernel) hsplit
    rintro ⟨m, hassigns⟩
    have hliteral := hall _ (mem_splits.mpr rfl) hsubject j hj
    simp [hassigns] at hliteral
  have hone : guardedUse.OneStoreEach := by
    intro pre n post hsplit
    exact guardedUse.built.wellFormed.forall_nodesOf
      (P := fun _ pre n _ => n.kind.isEquality = true →
        (about? guardedUse.graph n.kind).isSome = true → pending guardedUse.graph pre = false)
      (by decide +kernel) hsplit
  exact ⟨hcurrent, hone, (nullness_sound_up_to_stale_reads guardedUse).2.2.2 hcurrent hone⟩

/-- Reads `p`, sets it to `null`, follows what has been read along a field, and reads `p` again. -/
def overtakenUse : BlockRun Unit :=
  .ofValues
    [(Constants.inBlockThree 0 (.localRead ⟨"p"⟩), something),
      (Constants.inBlockThree 1 (.literal .null), .null),
      (Constants.inBlockThree 2 (.assignment ⟨"p"⟩ ⟨0, 1⟩), .null),
      (Constants.inBlockThree 3 (.fieldRead ⟨0, 0⟩ "f"), something),
      (Constants.inBlockThree 4 (.localRead ⟨"p"⟩), .null)]
    something .null (Graph.built_ofSteps (by decide +kernel)) (by decide +kernel)
    (fun _ _ _ => (Graph.built_ofSteps (by decide +kernel)).wellFormed.forall_nodesOf
      (P := fun _ pre n _ => ∀ m ∈ n.kind.operands, ∃ k ∈ pre, k.id = m) (by decide +kernel))
    ⟨⟨rfl, trivial⟩, ⟨trivial, rfl⟩, ⟨rfl, trivial⟩, ⟨trivial, nofun⟩, ⟨rfl, trivial⟩, trivial⟩

/-- Tests `p` and then, with nothing in between, `q`. -/
def consecutiveTests : BlockRun Unit :=
  .ofValues
    [(Constants.inBlockThree 0 (.localRead ⟨"p"⟩), .null),
      (Constants.inBlockThree 1 (.localRead ⟨"q"⟩), something),
      (Constants.inBlockThree 2 (.literal .null), .null),
      (Constants.inBlockThree 3 (.comparison .equal ⟨0, 0⟩ ⟨0, 2⟩), something),
      (Constants.inBlockThree 4 (.comparison .equal ⟨0, 1⟩ ⟨0, 2⟩), something)]
    .null something (Graph.built_ofSteps (by decide +kernel)) (by decide +kernel)
    (fun _ _ _ => (Graph.built_ofSteps (by decide +kernel)).wellFormed.forall_nodesOf
      (P := fun _ pre n _ => ∀ m ∈ n.kind.operands, ∃ k ∈ pre, k.id = m) (by decide +kernel))
    ⟨⟨rfl, trivial⟩, ⟨rfl, trivial⟩, ⟨trivial, rfl⟩, ⟨trivial, something_ne_null⟩,
      ⟨trivial, something_ne_null⟩, trivial⟩

theorem not_covers {store : NullnessStore} {locals : LocalVar → Option (Datum (Option ρ))}
    {x : LocalVar} {u : Nullness} {v : Datum (Option ρ)} (hstore : store.get? x = some u)
    (hlocal : locals x = some v) (h : ¬ Allows u v) : ¬ Covers store locals := by
  intro hcovers
  obtain ⟨u', hu, hallows⟩ := hcovers x v hlocal
  obtain rfl := Option.some.inj (hstore.symm.trans hu)
  exact h hallows

/-- After the overtaken use `p` is `null`, while both stores and the last read have it for not
`null`. After two tests in a row `p` is `null` and `q` is not, and neither store allows both. -/
theorem overtakenUse_not_sound :
    ¬ overtakenUse.Accounts overtakenUse.steps ∧
      (∀ outcome, ¬ Covers ((overtakenUse.walk overtakenUse.steps).last.flow.side outcome)
        (overtakenUse.machine overtakenUse.steps).locals) ∧
      ∀ outcome, ¬ Covers ((consecutiveTests.walk consecutiveTests.steps).last.flow.side outcome)
        (consecutiveTests.machine consecutiveTests.steps).locals := by
  refine ⟨fun haccounts => ?_, fun outcome => ?_, fun outcome => ?_⟩
  · have hvalue : (overtakenUse.walk overtakenUse.steps).findings.values[(⟨0, 4⟩ : NodeId)]? =
        some nonNull := by
      decide +kernel
    exact haccounts.values _ .null (List.mem_of_getElem? (i := 4) rfl) nonNull hvalue rfl
  · have hstores : ∀ outcome, ((overtakenUse.walk overtakenUse.steps).last.flow.side outcome).get?
        ⟨"p"⟩ = some nonNull := by
      decide +kernel
    exact not_covers (hstores outcome) rfl fun h => h rfl
  · have hstores :
        ((consecutiveTests.walk consecutiveTests.steps).last.flow.side true).get? ⟨"q"⟩ =
          some null ∧
        ((consecutiveTests.walk consecutiveTests.steps).last.flow.side false).get? ⟨"p"⟩ =
          some nonNull := by
      decide +kernel
    cases outcome with
    | true => exact not_covers hstores.1 rfl something_ne_null
    | false => exact not_covers hstores.2 rfl fun h => h rfl

end FlowFixpoint.Nullness
