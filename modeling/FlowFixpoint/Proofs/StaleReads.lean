/-
# FlowFixpoint.Proofs.StaleReads — how far a finished run is a fixpoint.

A finished run is a fixpoint at a block if passing the block again, from its recorded input and with
the recorded values, yields every recorded value and sends nothing that the blocks reached have not
absorbed. A node may read the value of an operand in another block, and a changed value makes only
the blocks reached next pending; a block further away may have been visited last with an older value
and is then left as it is.

What holds of every finished run is a fixpoint up to such stale reads: each block is one for the
values that its last visit saw, and those are the recorded ones for the nodes of the block and of
every block that flows straight into it. A run is a fixpoint throughout exactly when no further
visit changes anything, and it is one at every block that reads from itself and from the blocks
before it only. `staleGraph` is a loop of four blocks in which a dominating operand is read stale.
-/
import FlowFixpoint.Analyses.Constants
import FlowFixpoint.Analyses.Nullness
import FlowFixpoint.Proofs.Coverage
import FlowFixpoint.Report

namespace FlowFixpoint

variable {V S : Type}

/-! ## Passing a block again -/

namespace Replay

/-- What the last of some nodes yields when they are passed again; without nodes, only the arriving
flow. -/
def last (r : Replay V S) (values : Std.ExtTreeMap NodeId V) (input : Flow S)
    (nodes : List Node) : Outcome V S :=
  nodes.foldl (fun o n => r.outcome values o.flow n) (.keep none input)

variable (r : Replay V S) (values : Std.ExtTreeMap NodeId V) (input : Flow S)

theorem last_concat (ns : List Node) (n : Node) :
    r.last values input (ns ++ [n]) = r.outcome values (r.last values input ns).flow n := by
  simp [last]

theorem passAll_concat (ns : List Node) (n : Node) :
    r.passAll values input (ns ++ [n]) =
      (r.outcome values (r.passAll values input ns) n).flow := by
  simp [passAll]

theorem last_flow (ns : List Node) :
    (r.last values input ns).flow = r.passAll values input ns := by
  induction ns using List.reverseRecOn with
  | nil => rfl
  | append_singleton ns n ih => rw [last_concat, passAll_concat, ih]

end Replay

/-- Two things on the sides that flow comes from and goes to, in the order of execution. -/
def Direction.asExecuted {α : Type} (d : Direction) (arriving leaving : α) : α × α :=
  match d with
  | .forward => (arriving, leaving)
  | .backward => (leaving, arriving)

/-- Looking for the stores around a node passes its block again, up to the node and past it. -/
theorem Replay.around_eq [Join S] {r : Replay V S} (values : Std.ExtTreeMap NodeId V)
    (input : Flow S) {n : Node} {pre post : List Node}
    (hwalk : r.graph.walk r.analysis.direction n.block = .ok (pre ++ n :: post))
    (hfresh : ∀ k ∈ pre, k.id ≠ n.id) :
    r.around values input n = .ok (some (r.analysis.direction.asExecuted
      (r.passAll values input pre).regular (r.passAll values input (pre ++ [n])).regular)) := by
  have hbefore : ∀ k ∈ pre, decide (k.id ≠ n.id) = true := fun k hk => decide_eq_true (hfresh k hk)
  unfold around
  rw [hwalk]
  simp only [bind, Except.bind]
  rw [List.dropWhile_append_of_pos hbefore, List.takeWhile_append_of_pos hbefore,
    List.dropWhile_cons_of_neg (by simp), List.takeWhile_cons_of_neg (by simp), List.append_nil,
    passAll_concat]
  cases r.analysis.direction <;> rfl

/-- A store query is answered by passing a block again that lists the node. -/
theorem Report.storesAround_of_replay [Join S] {r : Report V S} {a : Analysis V S} {g : Graph}
    (hg : g.WellFormed) (hreplay : r.replays[g.id]? = some ⟨g, a⟩) {b : BlockId} {input : Flow S}
    (hinput : r.findings.inputs[b]? = some input) {pre post : List Node} {n : Node}
    (hsplit : g.passedNodes a.direction b = pre ++ n :: post) :
    r.storesAround n.id = .ok (some (a.direction.asExecuted
      (Replay.passAll ⟨g, a⟩ r.findings.values input pre).regular
      (Replay.passAll ⟨g, a⟩ r.findings.values input (pre ++ [n])).regular)) := by
  have hpassed : n ∈ g.passedNodes a.direction b := by simp [hsplit]
  have hmem := Graph.mem_passedNodes.mp hpassed
  obtain ⟨hblock, hnode⟩ := hg.block_of_mem_nodesOf hmem
  obtain ⟨block, hb, -⟩ := Graph.mem_nodesOf.mp hmem
  obtain ⟨hgraph, -⟩ := Graph.node?_eq_some_iff.mp hnode
  have hwalk : g.walk a.direction n.block = .ok (pre ++ n :: post) := by
    rw [hblock, hg.walk_eq _ hb, hsplit]
  have hquery : r.storesAround n.id = Replay.around ⟨g, a⟩ r.findings.values input n := by
    simp only [storesAround, hgraph, hreplay, hnode, hblock, hinput]
  have hnodup := hg.passedNodes_nodup a.direction b
  rw [hsplit, List.map_append, List.nodup_append] at hnodup
  rw [hquery]
  refine Replay.around_eq (r := ⟨g, a⟩) _ _ hwalk fun k hk => ?_
  exact hnodup.2.2 k.id (List.mem_map_of_mem hk) n.id (by simp)

/-- So the report of a forward run knows the stores around every node of a block with an input. -/
theorem Report.storesAround_ofRun [Join S] {a : Analysis V S} (hforward : a.direction = .forward)
    {g : Graph} (hg : g.WellFormed) {p : Pass V S} {b : BlockId} {input : Flow S}
    (hinput : p.findings.inputs[b]? = some input) {pre post : List Node} {n : Node}
    (hsplit : g.nodesOf b = pre ++ n :: post) :
    (Report.ofRun a g (.ok p)).storesAround n.id =
      .ok (some ((Replay.passAll ⟨g, a⟩ p.findings.values input pre).regular,
        (Replay.passAll ⟨g, a⟩ p.findings.values input (pre ++ [n])).regular)) := by
  have hreplay : (Report.ofRun a g (.ok p)).replays[g.id]? = some ⟨g, a⟩ := by simp [ofRun]
  have hpassed : g.passedNodes a.direction b = pre ++ n :: post := by
    rw [hforward]
    exact hsplit
  rw [storesAround_of_replay hg hreplay hinput hpassed, hforward]
  rfl

namespace Analysis

/-- Transfers that look at no value but those of certain operands of their node, and for which the
node decides whether there is a value at all. -/
structure ReadsOnly (a : Analysis V S) (reads : NodeKind → List NodeId) : Prop where
  agree : ∀ (g : Graph) (values values' : Std.ExtTreeMap NodeId V) (replay replay' : Bool)
    (n : Node) (φ : Flow S), (∀ m ∈ reads n.kind, values[m]? = values'[m]?) →
      a.transfer { graph := g, values, replay } n φ =
        a.transfer { graph := g, values := values', replay := replay' } n φ
  valued : ∀ (scene scene' : Scene V) (n : Node) (φ φ' : Flow S),
    (a.transfer scene n φ).value.isSome = (a.transfer scene' n φ').value.isSome

/-- A walk and a replay yield the same if each node finds its operands' values in the table. -/
theorem ReadsOnly.through_last [DecidableEq V] {a : Analysis V S}
    {reads : NodeKind → List NodeId} (ha : a.ReadsOnly reads) {g : Graph} {f : Findings V S}
    {input : Flow S} {table : Std.ExtTreeMap NodeId V} {ns : List Node}
    (h : ∀ pre n post, ns = pre ++ n :: post → ∀ m ∈ reads n.kind,
      (Walk.through g a f input pre).findings.values[m]? = table[m]?) :
    (Walk.through g a f input ns).last = Replay.last ⟨g, a⟩ table input ns := by
  induction ns using List.reverseRecOn with
  | nil => rfl
  | append_singleton ns n ih =>
    have hns : ∀ pre k post, ns = pre ++ k :: post → ∀ m ∈ reads k.kind,
        (Walk.through g a f input pre).findings.values[m]? = table[m]? := by
      rintro pre k post rfl
      exact h pre k (post ++ [n]) (by simp)
    rw [Walk.through_concat, Walk.step_last, Replay.last_concat, ih hns]
    exact ha.agree g _ _ _ _ n _ (h ns n [] rfl)

end Analysis

namespace Constants

theorem operand_congr {scene scene' : Scene Constant} {m : NodeId}
    (h : scene.values[m]? = scene'.values[m]?) : operand scene m = operand scene' m := by
  simp only [operand, Scene.value?, h]

/-- Equality tests have no value. -/
theorem value_equality (scene : Scene Constant) (equalOn : Bool) (l r : NodeId)
    (φ : Flow ConstantStore) : (equality scene equalOn l r φ).value = none := by
  unfold equality
  split
  · rfl
  · cases equalOn <;> rfl

/-- The operands whose values constant propagation looks at. -/
def reads : NodeKind → List NodeId
  | .assignment _ value => [value]
  | .arithmetic _ left right => [left, right]
  | .minus operand => [operand]
  | .comparison .equal left right | .comparison .notEqual left right => [left, right]
  | _ => []

theorem readsOnly : analysis.ReadsOnly reads where
  agree g values values' replay replay' n φ h := by
    have hoperand : ∀ m ∈ reads n.kind, operand { graph := g, values, replay } m =
        operand { graph := g, values := values', replay := replay' } m := fun m hm =>
      operand_congr (h m hm)
    simp only [analysis, transfer]
    split <;> simp_all [reads, equality, refinement?]
  valued scene scene' n φ φ' := by
    simp only [analysis, transfer]
    split <;> simp_all [Outcome.single, Outcome.keep, Outcome.pass, value_equality]

end Constants

namespace Nullness

/-- The operands whose values nullness looks at. -/
def reads : NodeKind → List NodeId
  | .assignment _ value => [value]
  | _ => []

theorem reads_subset_operands (kind : NodeKind) : reads kind ⊆ kind.operands := by
  unfold reads
  split <;> simp [NodeKind.operands]

/-- Equality tests yield a value that is not null. -/
theorem value_test (scene : Scene Nullness) (onTrue onFalse : Nullness) (l r : NodeId)
    (φ : Flow NullnessStore) : (test scene onTrue onFalse l r φ).value = some nonNull := by
  unfold test
  split <;> rfl

theorem readsOnly : analysis.ReadsOnly reads where
  agree g values values' replay replay' n φ h := by
    simp only [analysis, transfer]
    split <;> simp_all [reads, Scene.value?, test, dereference]
  valued scene scene' n φ φ' := by
    simp only [analysis, transfer]
    split <;>
      simp_all [Outcome.single, Outcome.keep, Outcome.pass, dereference, Outcome.throwing, value_test]

end Nullness

/-! ## Fixpoints -/

namespace Analysis

variable [Store S]

/-- Passing a block again with a table of values yields the recorded values, and what it sends along
each edge is absorbed by the recorded input it reaches. -/
structure FixedAt (a : Analysis V S) (g : Graph) (f : Findings V S)
    (table : Std.ExtTreeMap NodeId V) (b : BlockId) (input : Flow S) : Prop where
  values : ∀ pre n post, g.nodesOf b = pre ++ n :: post →
    (Replay.outcome ⟨g, a⟩ table (Replay.passAll ⟨g, a⟩ table input pre) n).value =
      f.values[n.id]?
  edges : ∀ e ∈ g.edges, e.source = b → ∃ target arrived, g.block? e.target = some target ∧
    f.inputs[e.target]? = some arrived ∧
    join arrived ((Replay.last ⟨g, a⟩ table input (g.nodesOf b)).sentForward e.label
      target.kind) = arrived

/-- The findings are a fixpoint at every block with an input. -/
def Fixpoint (a : Analysis V S) (g : Graph) (f : Findings V S) : Prop :=
  ∀ b input, f.inputs[b]? = some input → a.FixedAt g f f.values b input

end Analysis

/-- No node of the block reads from itself or from a node after it. -/
def Graph.ReadsPrecede (g : Graph) (reads : NodeKind → List NodeId) (b : BlockId) : Prop :=
  ∀ pre n post, g.nodesOf b = pre ++ n :: post → ∀ m ∈ reads n.kind, ∀ k ∈ n :: post, k.id ≠ m

namespace Setup

variable [Store S] [DecidableEq V] [DecidableEq S] {s : Setup V S} {start p q : Pass V S}
  {b : BlockId} {input : Flow S} {reads : NodeKind → List NodeId}

/-- One more visit would change neither values nor inputs. -/
def QuietAt (s : Setup V S) (p : Pass V S) (b : BlockId) : Prop :=
  ∃ p', s.visit b p = .ok p' ∧ p'.findings.values = p.findings.values ∧
    p'.findings.inputs = p.findings.inputs

/-- A node that never yields a value never gets one. -/
theorem values_eq_none (hs : s.Starts start) (ha : s.analysis.ReadsOnly reads)
    (h : s.Reached start p) {n : Node} (hn : n ∈ s.graph.nodesOf b) {scene : Scene V} {φ : Flow S}
    (hnone : (s.analysis.transfer scene n φ).value = none) : p.findings.values[n.id]? = none := by
  induction h with
  | refl => simp [hs.started.values]
  | @tail p p' hbefore hstep ih =>
    obtain ⟨c, hstep⟩ := hstep
    obtain ⟨input, hframe⟩ := hstep.stepped hs.wellFormed (hs.orderly_of_reached hbefore)
    rw [hframe.values]
    by_cases hbc : b = c
    · subst hbc
      obtain ⟨pre, post, hsplit⟩ := List.append_of_mem
        (Graph.mem_passedNodes (d := s.analysis.direction) |>.mpr hn)
      have hnodup := hs.wellFormed.passedNodes_nodup s.analysis.direction b
      unfold walkOf
      rw [hsplit] at hnodup ⊢
      rw [Walk.through_values_self _ _ _ _ hnodup, ih, Option.or_none, Walk.through_concat,
        Walk.step_last, ← Option.not_isSome_iff_eq_none, ha.valued _ scene n _ φ, hnone]
      simp
    · rw [walkOf_values_of_ne p input hs.wellFormed hn hbc, ih]

section Forward

variable (hs : s.Starts start) (hforward : s.analysis.direction = .forward)
  (ha : s.analysis.ReadsOnly reads)

include hforward in
omit [Store S] [DecidableEq S] in
theorem walkOf_forward (p : Pass V S) : s.walkOf b p input =
    Walk.through s.graph s.analysis p.findings input (s.graph.nodesOf b) := by
  simp only [walkOf, Graph.passedNodes, hforward]

include hs hforward ha

/-- A walk records for each node what the node yields. -/
theorem walkOf_value (hq : s.Reached start q) {pre post : List Node} {n : Node}
    (hsplit : s.graph.nodesOf b = pre ++ n :: post) :
    (s.walkOf b q input).findings.values[n.id]? =
      (Walk.through s.graph s.analysis q.findings input (pre ++ [n])).last.value := by
  have hnodup := hs.wellFormed.nodesOf_nodup b
  rw [hsplit] at hnodup
  rw [walkOf_forward hforward, hsplit, Walk.through_values_self _ _ _ _ hnodup]
  cases hvalue : (Walk.through s.graph s.analysis q.findings input (pre ++ [n])).last.value with
  | some v => rfl
  | none =>
    rw [Walk.through_concat, Walk.step_last] at hvalue
    rw [values_eq_none hs ha hq (b := b) (by rw [hsplit]; simp) hvalue]
    rfl

omit hs ha [DecidableEq V] [DecidableEq S] in
/-- All parcels of a block are absorbed exactly when every edge carries to its target nothing new. -/
theorem absorbed_parcelsOf (hg : s.graph.WellFormed) {last : Outcome V S} :
    (∀ e ∈ s.parcelsOf b last, p.Absorbed e.1 e.2) ↔
      ∀ edge ∈ s.graph.edges, edge.source = b → ∃ target arrived,
        s.graph.block? edge.target = some target ∧ p.findings.inputs[edge.target]? = some arrived ∧
        join arrived (last.sentForward edge.label target.kind) = arrived := by
  simp only [mem_parcelsOf hg, hforward]
  constructor
  · intro h edge hedge hsource
    obtain ⟨target, htarget⟩ := hg.exists_block_target hedge
    obtain ⟨arrived, harrived, hbelow⟩ := h _ ⟨edge, hedge, hsource, target, htarget, rfl⟩
    exact ⟨target, arrived, htarget, harrived, hbelow⟩
  · rintro h e ⟨edge, hedge, hsource, target, htarget, rfl⟩
    obtain ⟨target', arrived, htarget', harrived, hbelow⟩ := h edge hedge hsource
    obtain rfl : target = target' := Option.some.inj (htarget.symm.trans htarget')
    exact ⟨arrived, harrived, hbelow⟩

variable [PlainWidening S]

/-- A covered block is fixed for every table in which its nodes find what its last visit saw. -/
theorem fixedAt_of_covered (hq : s.Reached start q) (hcovered : s.Covered q p b input)
    (hprecede : s.graph.ReadsPrecede reads b) {table : Std.ExtTreeMap NodeId V}
    (htable : ∀ n ∈ s.graph.nodesOf b, ∀ m ∈ reads n.kind,
      table[m]? = (s.walkOf b q input).findings.values[m]?) :
    s.analysis.FixedAt s.graph p.findings table b input := by
  have hlast : ∀ pre post, s.graph.nodesOf b = pre ++ post →
      (Walk.through s.graph s.analysis q.findings input pre).last =
        Replay.last ⟨s.graph, s.analysis⟩ table input pre := by
    intro pre post hsplit
    refine ha.through_last ?_
    rintro pre n rest rfl m hm
    have hsplit' : s.graph.nodesOf b = pre ++ n :: (rest ++ post) := by simp [hsplit]
    -- `n` reads nothing that is walked from `n` on, so the finished walk shows what it has read
    rw [htable n (by simp [hsplit']) m hm, walkOf_forward hforward, hsplit',
      Walk.through_values_append _ _ _ _ _ _ (hprecede _ _ _ hsplit' m hm)]
  constructor
  · intro pre n post hsplit
    rw [hcovered.values b (.inl rfl) n (by simp [hsplit]), walkOf_value hs hforward ha hq hsplit,
      hlast (pre ++ [n]) post (by simp [hsplit]), Replay.last_concat, Replay.last_flow]
  · rw [← hlast (s.graph.nodesOf b) [] (by simp), ← walkOf_forward hforward]
    exact (absorbed_parcelsOf hforward hs.wellFormed).mp fun e he =>
      hcovered.absorbed e he (.inr inferInstance)

variable [LawfulJoin S]

omit hs hforward [DecidableEq S] [LawfulJoin S] [PlainWidening S] in
/-- Walking a fixed block changes no value and ends as passing it again does. -/
theorem through_of_fixedAt
    (hfixed : s.analysis.FixedAt s.graph p.findings p.findings.values b input) (pre post : List Node)
    (hsplit : s.graph.nodesOf b = pre ++ post) :
    (Walk.through s.graph s.analysis p.findings input pre).findings.values = p.findings.values ∧
      (Walk.through s.graph s.analysis p.findings input pre).last =
        Replay.last ⟨s.graph, s.analysis⟩ p.findings.values input pre := by
  induction pre using List.reverseRecOn generalizing post with
  | nil => exact ⟨rfl, rfl⟩
  | append_singleton pre n ih =>
    obtain ⟨hvalues, hlast⟩ := ih (n :: post) (by simp [hsplit])
    have hnext : ((Walk.through s.graph s.analysis p.findings input pre).step
        s.graph s.analysis n).last =
          Replay.last ⟨s.graph, s.analysis⟩ p.findings.values input (pre ++ [n]) := by
      rw [Walk.step_last, Replay.last_concat, hvalues, hlast]
      exact ha.agree _ _ _ _ _ _ _ fun m _ => rfl
    rw [Walk.through_concat]
    refine ⟨?_, hnext⟩
    apply Std.ExtTreeMap.ext_getElem?
    intro m
    rw [Walk.step_values, hvalues, hnext, Replay.last_concat, Replay.last_flow,
      hfixed.values pre n post (by simp [hsplit])]
    split
    · next hm => rw [hm, Option.or_self]
    · rfl

/-- A fixed block is passed by a further visit without any change. -/
theorem quietAt_of_fixedAt (hp : s.Reached start p) (hinput : p.input? b = some input)
    (hfixed : s.analysis.FixedAt s.graph p.findings p.findings.values b input) :
    s.QuietAt p b := by
  obtain ⟨hvalues, hlast⟩ := through_of_fixedAt ha hfixed (s.graph.nodesOf b) [] (by simp)
  rw [← walkOf_forward hforward] at hvalues hlast
  have hchanged : (s.walkOf b p input).changed = false :=
    (changed_walkOf hs.wellFormed).mpr hvalues
  obtain ⟨block, hblock⟩ := hs.block_of_input hp (Option.isSome_iff_exists.mpr ⟨_, hinput⟩)
  have horderly := hs.orderly_of_reached hp
  -- the state in which the visit delivers has the inputs and slots of the state before it
  obtain ⟨r, hr⟩ : ∃ r : Pass V S, r = { p with findings := (s.walkOf b p input).findings } :=
    ⟨_, rfl⟩
  have hsame : ∀ c, r.input? c = p.input? c := fun c => by simp [hr, Pass.input?, walkOf]
  have hslots : ∀ c, r.slotsOf c = p.slotsOf c := fun c => by rw [hr]; rfl
  obtain ⟨q, hq⟩ : ∃ q, s.deliverAll (s.parcelsOf b (s.walkOf b p input).last) r = .ok q :=
    exists_deliverAll (fun _ _ => .inl (.inr inferInstance)) r
  have hdelivered := delivered_of_deliverAll hq
  refine ⟨_, by rw [visit_eq hs.wellFormed hblock hinput, ← hr, hq]; rfl, ?_, ?_⟩
  · rw [Pass.findings_requeueIf, hdelivered.values, hr, hvalues]
  · rw [Pass.findings_requeueIf]
    apply Std.ExtTreeMap.ext_getElem?
    intro c
    have hquiet : q.changes c = r.changes c := by
      refine quiet_deliverAll (.inr inferInstance) ?_ (addressed_parcelsOf hs.wellFormed b _) ?_ hq
      · intro d hd
        unfold Pass.Matched
        rw [hsame, hslots]
        exact horderly.slots d hd
      · rintro e he rfl
        refine (Pass.absorbed_congr (hsame _) (hslots _)).mpr ?_
        rw [hlast] at he
        exact (absorbed_parcelsOf hforward hs.wellFormed).mpr hfixed.edges e he
    exact ((hdelivered.quiet c hquiet).1.trans (hsame c))

/-- A block that a further visit passes without any change is fixed. -/
theorem fixedAt_of_quietAt (hp : s.Reached start p) (hinput : p.input? b = some input)
    (hquiet : s.QuietAt p b) :
    s.analysis.FixedAt s.graph p.findings p.findings.values b input := by
  obtain ⟨p', hvisit, hvalues, hinputs⟩ := hquiet
  obtain ⟨q, hq, rfl⟩ := visit_eq_ok hs.wellFormed hinput hvisit
  rw [Pass.findings_requeueIf] at hvalues hinputs
  rw [(delivered_of_deliverAll hq).values] at hvalues
  have hnodup := hs.wellFormed.nodesOf_nodup b
  have hlast : ∀ pre post, s.graph.nodesOf b = pre ++ post →
      (Walk.through s.graph s.analysis p.findings input pre).last =
        Replay.last ⟨s.graph, s.analysis⟩ p.findings.values input pre := by
    intro pre post hsplit
    refine ha.through_last ?_
    rintro pre n rest rfl m hm
    have hsplit' : s.graph.nodesOf b = pre ++ (n :: rest ++ post) := by simp [hsplit]
    by_cases hlater : ∃ k ∈ n :: rest ++ post, k.id = m
    · -- the walk has not come to the operand yet
      obtain ⟨k, hk, rfl⟩ := hlater
      refine Walk.through_values_of_not_mem _ _ _ _ ?_
      intro j hj hid
      rw [hsplit', List.map_append, List.nodup_append] at hnodup
      exact hnodup.2.2 _ (List.mem_map_of_mem hj) _ (List.mem_map_of_mem hk) hid
    · -- the rest of the walk leaves the operand alone, and the whole walk changes nothing
      rw [← Walk.through_values_append s.graph s.analysis p.findings input pre
        (n :: rest ++ post) (fun k hk hid => hlater ⟨k, hk, hid⟩), ← hsplit',
        ← walkOf_forward hforward, hvalues]
  constructor
  · intro pre n post hsplit
    rw [← Replay.last_flow, ← Replay.last_concat, ← hlast (pre ++ [n]) post (by simp [hsplit]),
      ← walkOf_value hs hforward ha hp hsplit, hvalues]
  · rw [← hlast (s.graph.nodesOf b) [] (by simp), ← walkOf_forward hforward, ← hinputs]
    exact (absorbed_parcelsOf hforward hs.wellFormed).mp fun e he =>
      absorbed_deliverAll (addressed_parcelsOf hs.wellFormed b _) hq he (.inr inferInstance)

end Forward

end Setup

/-! ## What a finished run guarantees -/

/-- Every node of the block reads from nodes before it in the block and from other blocks that lead
straight into it. -/
def Graph.ReadsNearby (g : Graph) (reads : NodeKind → List NodeId) (b : BlockId) : Prop :=
  ∀ pre n post, g.nodesOf b = pre ++ n :: post → ∀ m ∈ reads n.kind,
    (∃ k ∈ pre, k.id = m) ∨
      ∃ e ∈ g.edges, e.target = b ∧ e.source ≠ b ∧ ∃ k ∈ g.nodesOf e.source, k.id = m

theorem Graph.ReadsNearby.readsPrecede {g : Graph} (hg : g.WellFormed)
    {reads : NodeKind → List NodeId} {b : BlockId} (h : g.ReadsNearby reads b) :
    g.ReadsPrecede reads b := by
  rintro pre n post hsplit m hm j hj rfl
  have hmem : j ∈ g.nodesOf b := by
    rw [hsplit]
    exact List.mem_append_right pre hj
  rcases h pre n post hsplit j.id hm with ⟨k, hk, hid⟩ | ⟨e, -, -, hne, k, hk, hid⟩
  · exact hg.id_ne_of_split hsplit hk hj hid
  · exact hne (hg.block_unique hk hmem hid)

namespace Analysis

variable [Store S] [DecidableEq V] [DecidableEq S]

/-- What a finished forward run guarantees. -/
structure FixedUpToStaleReads (a : Analysis V S) (reads : NodeKind → List NodeId)
    (settings : Settings) (g : Graph) (p : Pass V S) : Prop where
  /-- The start blocks have absorbed what flow starts with. -/
  seeds : ∃ seeds, a.seeds g = .ok seeds ∧ ∀ b store, (b, store) ∈ seeds →
    ∃ arrived, p.findings.inputs[b]? = some arrived ∧ join arrived (.single store) = arrived
  /-- Every block is fixed for the values that its last visit saw, and for its own nodes and those of
  blocks that lead straight into it these are the recorded ones. -/
  seen : ∀ b input, p.findings.inputs[b]? = some input → g.ReadsPrecede reads b →
    ∃ seen : Std.ExtTreeMap NodeId V,
      (∀ n ∈ g.nodesOf b, seen[n.id]? = p.findings.values[n.id]?) ∧
      (∀ e ∈ g.edges, e.target = b → ∀ n ∈ g.nodesOf e.source,
        seen[n.id]? = p.findings.values[n.id]?) ∧
      ∀ table : Std.ExtTreeMap NodeId V,
        (∀ n ∈ g.nodesOf b, ∀ m ∈ reads n.kind, table[m]? = seen[m]?) →
          a.FixedAt g p.findings table b input
  /-- A block that reads nearby is fixed. -/
  nearby : ∀ b input, p.findings.inputs[b]? = some input → g.ReadsNearby reads b →
    a.FixedAt g p.findings p.findings.values b input
  /-- A block is fixed exactly when one more visit would change nothing. -/
  quiet : ∀ s start, a.prepare settings g = .ok (s, start) → ∀ b input,
    p.findings.inputs[b]? = some input →
      (a.FixedAt g p.findings p.findings.values b input ↔ s.QuietAt p b)

theorem ReadsOnly.fixedUpToStaleReads [LawfulJoin S] [PlainWidening S] {a : Analysis V S}
    {reads : NodeKind → List NodeId} (ha : a.ReadsOnly reads) (hforward : a.direction = .forward)
    {settings : Settings} {g : Graph} (hg : g.WellFormed) {p : Pass V S}
    (h : a.solve settings g = .ok p) : a.FixedUpToStaleReads reads settings g p := by
  obtain ⟨s, start, hprepare, hreached, hcovered⟩ := covered_of_solve hg h
  obtain ⟨hs, hgraph, hanalysis, -⟩ := starts_of_prepare hg hprepare
  have hseen : ∀ b input, p.findings.inputs[b]? = some input → g.ReadsPrecede reads b →
      ∃ seen : Std.ExtTreeMap NodeId V,
        (∀ n ∈ g.nodesOf b, seen[n.id]? = p.findings.values[n.id]?) ∧
        (∀ e ∈ g.edges, e.target = b → ∀ n ∈ g.nodesOf e.source,
          seen[n.id]? = p.findings.values[n.id]?) ∧
        ∀ table : Std.ExtTreeMap NodeId V,
          (∀ n ∈ g.nodesOf b, ∀ m ∈ reads n.kind, table[m]? = seen[m]?) →
            a.FixedAt g p.findings table b input := by
    subst hgraph hanalysis
    intro b input hinput hprecede
    obtain ⟨q, hq, hcov⟩ := hcovered b input hinput
    refine ⟨(s.walkOf b q input).findings.values, ?_, ?_, ?_⟩
    · exact fun n hn => (hcov.values b (.inl rfl) n hn).symm
    · rintro e he rfl n hn
      have hreach : e.target ∈ s.reachedFrom e.source := by
        obtain ⟨block, hblock⟩ := hg.exists_block_target he
        rw [Setup.mem_reachedFrom, hforward]
        exact ⟨_, hg.mem_routesOf.mpr ⟨e, he, rfl, block, hblock, rfl⟩, rfl⟩
      exact (hcov.values e.source (.inr hreach) n hn).symm
    · exact fun table htable => Setup.fixedAt_of_covered hs hforward ha hq hcov hprecede htable
  refine ⟨?_, hseen, ?_, ?_⟩
  · subst hgraph hanalysis
    refine ⟨_, s.analysis.seeds_eq hg, ?_⟩
    intro b store hseed
    exact Setup.absorbed_seed hs hreached hseed (.inr inferInstance)
  · intro b input hinput hnearby
    obtain ⟨seen, hown, hbefore, hfixed⟩ := hseen b input hinput (hnearby.readsPrecede hg)
    refine hfixed p.findings.values ?_
    intro n hn m hm
    obtain ⟨pre, post, hsplit⟩ := List.append_of_mem hn
    rcases hnearby pre n post hsplit m hm with ⟨k, hk, rfl⟩ | ⟨e, he, htarget, -, k, hk, rfl⟩
    · exact (hown k (by simp [hsplit, hk])).symm
    · exact (hbefore e he htarget k hk).symm
  · intro s' start' hprepare' b input hinput
    obtain ⟨rfl, rfl⟩ : s = s' ∧ start = start' := by simpa [hprepare] using hprepare'
    subst hgraph hanalysis
    exact ⟨Setup.quietAt_of_fixedAt hs hforward ha hreached hinput,
      Setup.fixedAt_of_quietAt hs hforward ha hreached hinput⟩

end Analysis

/-- Constant propagation and nullness reach a fixpoint up to stale reads: exactly at the blocks that
one more visit would leave alone, among them all that read nearby. -/
theorem finished_run_fixed_up_to_stale_reads (settings : Settings) (g : Graph) (hg : g.Built) :
    (∀ p, Constants.analysis.solve settings g = .ok p →
        Constants.analysis.FixedUpToStaleReads Constants.reads settings g p) ∧
      ∀ p, Nullness.analysis.solve settings g = .ok p →
        Nullness.analysis.FixedUpToStaleReads Nullness.reads settings g p :=
  ⟨fun _ h => Constants.readsOnly.fixedUpToStaleReads rfl hg.wellFormed h,
    fun _ h => Nullness.readsOnly.fixedUpToStaleReads rfl hg.wellFormed h⟩

/-! ## A stale read -/

/-- Block 4 reads `x` at the head of a loop, block 5 sets `x` and `y` to 5, block 6 sets `y` to what
block 4 has read and `x` to 2. From the second round on block 4 reads an unknown value, but that
value only makes block 5 pending, which sends on what it sent before. -/
def staleGraph : Graph :=
  .ofSteps (.loose "")
    [.addBlock .regular, .addBlock .regular, .addBlock .regular, .addBlock .regular,
      .addBlock .conditional,
      .push ⟨0, 3⟩ (.literal (.integer 1)), .push ⟨0, 3⟩ (.assignment ⟨"x"⟩ ⟨0, 0⟩),
      .push ⟨0, 4⟩ (.localRead ⟨"x"⟩),
      .push ⟨0, 5⟩ (.literal (.integer 5)), .push ⟨0, 5⟩ (.assignment ⟨"x"⟩ ⟨0, 3⟩),
      .push ⟨0, 5⟩ (.assignment ⟨"y"⟩ ⟨0, 3⟩),
      .push ⟨0, 6⟩ (.assignment ⟨"y"⟩ ⟨0, 2⟩), .push ⟨0, 6⟩ (.literal (.integer 2)),
      .push ⟨0, 6⟩ (.assignment ⟨"x"⟩ ⟨0, 7⟩),
      .addEdge ⟨0, 0⟩ ⟨0, 3⟩ .unconditional, .addEdge ⟨0, 3⟩ ⟨0, 4⟩ .unconditional,
      .addEdge ⟨0, 4⟩ ⟨0, 5⟩ .unconditional, .addEdge ⟨0, 5⟩ ⟨0, 6⟩ .unconditional,
      .addEdge ⟨0, 6⟩ ⟨0, 7⟩ .unconditional, .addEdge ⟨0, 7⟩ ⟨0, 4⟩ .onTrue,
      .addEdge ⟨0, 7⟩ ⟨0, 1⟩ .onFalse]

theorem staleGraph_built : staleGraph.Built := Graph.built_ofSteps (by decide +kernel)

/-- The guarantee at the graph with the stale read, for both analyses. -/
theorem staleGraph_fixed_up_to_stale_reads :
    staleGraph.Built ∧
      (∃ p, Constants.analysis.solve (.default .debug) staleGraph = .ok p ∧
        Constants.analysis.FixedUpToStaleReads Constants.reads (.default .debug) staleGraph p) ∧
      ∃ p, Nullness.analysis.solve (.default .debug) staleGraph = .ok p ∧
        Nullness.analysis.FixedUpToStaleReads Nullness.reads (.default .debug) staleGraph p := by
  obtain ⟨p, hp⟩ :=
    exists_eq_ok (x := Constants.analysis.solve (.default .debug) staleGraph) (by decide +kernel)
  obtain ⟨q, hq⟩ :=
    exists_eq_ok (x := Nullness.analysis.solve (.default .debug) staleGraph) (by decide +kernel)
  have hboth := finished_run_fixed_up_to_stale_reads (.default .debug) staleGraph staleGraph_built
  exact ⟨staleGraph_built, ⟨p, hp, hboth.1 p hp⟩, ⟨q, hq, hboth.2 q hq⟩⟩

namespace Graph

/-- Every path of edges from the entry to `b` passes through `c`. -/
def Dominates (g : Graph) (c b : BlockId) : Prop :=
  ∀ path : List BlockId, path.IsChain (fun x y => ∃ e ∈ g.edges, e.source = x ∧ e.target = y) →
    path.head? = some g.entry → path.getLast? = some b → c ∈ path

/-- Every operand lies earlier in its node's block or in another block that dominates it. -/
def OperandsDominate (g : Graph) : Prop :=
  ∀ b pre n post, g.nodesOf b = pre ++ n :: post → ∀ m ∈ n.kind.operands,
    (∃ k ∈ pre, k.id = m) ∨ ∃ c, c ≠ b ∧ (∃ k ∈ g.nodesOf c, k.id = m) ∧ g.Dominates c b

/-- Blocks that are closed under edges but for those into `c` hold every path that avoids `c`. -/
theorem dominates_of_closed {g : Graph} {c b : BlockId} (within : List BlockId)
    (hentry : g.entry ∈ within) (hclosed : ∀ e ∈ g.edges, e.source ∈ within →
      e.target = c ∨ e.target ∈ within) (hb : b ∉ within) : g.Dominates c b := by
  intro path hchain hhead hlast
  by_contra hc
  have hall : ∀ (path : List BlockId) (x : BlockId), x ∈ within → c ∉ path →
      (x :: path).IsChain (fun x y => ∃ e ∈ g.edges, e.source = x ∧ e.target = y) →
        ∀ y ∈ x :: path, y ∈ within := by
    intro path
    induction path with
    | nil => simp
    | cons next path ih =>
      intro x hx hc hchain
      obtain ⟨⟨e, he, rfl, rfl⟩, hrest⟩ := List.isChain_cons_cons.mp hchain
      have hnext := (hclosed e he hx).resolve_left fun heq => hc (by simp [heq])
      intro y hy
      rcases List.mem_cons.mp hy with rfl | hy
      · exact hx
      · exact ih _ hnext (fun hmem => hc (List.mem_cons_of_mem _ hmem)) hrest y hy
  cases path with
  | nil => cases hhead
  | cons x path =>
    obtain rfl : x = g.entry := by simpa using hhead
    exact hb (hall path _ hentry (fun hmem => hc (List.mem_cons_of_mem _ hmem)) hchain b
      (List.mem_of_getLast? hlast))

end Graph

theorem staleGraph_operandsDominate : staleGraph.OperandsDominate := by
  -- only the operand of the assignment to `y` in block 6 lies in another block
  have hblock4 : staleGraph.Dominates ⟨0, 4⟩ ⟨0, 6⟩ :=
    Graph.dominates_of_closed [⟨0, 0⟩, ⟨0, 3⟩] (by decide +kernel) (by decide +kernel)
      (by decide +kernel)
  intro b pre n post hsplit
  refine staleGraph_built.wellFormed.forall_nodesOf (P := fun b pre n _ => ∀ m ∈ n.kind.operands,
    (∃ k ∈ pre, k.id = m) ∨ ∃ c, c ≠ b ∧ (∃ k ∈ staleGraph.nodesOf c, k.id = m) ∧
      staleGraph.Dominates c b) ?_ hsplit
  intro block hblock t ht m hm
  have hcases : ∀ block ∈ staleGraph.blocks.toList, ∀ t ∈ splits (staleGraph.nodesOf block.id),
      ∀ m ∈ t.2.1.kind.operands, (∃ k ∈ t.1, k.id = m) ∨ block.id = ⟨0, 6⟩ ∧ m = ⟨0, 2⟩ := by
    decide +kernel
  rcases hcases block hblock t ht m hm with hearlier | ⟨hid, rfl⟩
  · exact .inl hearlier
  · exact .inr ⟨⟨0, 4⟩, by rw [hid]; decide, by decide +kernel, hid ▸ hblock4⟩

/-- All operands dominate, the run ends well, and yet block 6 is not fixed: its first node has the
recorded value 1, while the recorded value of its operand is unknown. -/
theorem staleGraph_not_fixpoint :
    staleGraph.Built ∧ staleGraph.OperandsDominate ∧
      ∃ p, Constants.analysis.solve (.default .debug) staleGraph = .ok p ∧
        ¬ Constants.analysis.Fixpoint staleGraph p.findings := by
  obtain ⟨p, hp⟩ :=
    exists_eq_ok (x := Constants.analysis.solve (.default .debug) staleGraph) (by decide +kernel)
  have hrecorded : (Constants.analysis.solve (.default .debug) staleGraph).toOption.map (fun p =>
      (p.findings.inputs[(⟨0, 6⟩ : BlockId)]?.isSome, p.findings.values[(⟨0, 2⟩ : NodeId)]?,
        p.findings.values[(⟨0, 6⟩ : NodeId)]?)) = some (true, some .top, some (.known 1)) := by
    decide +kernel
  have hnodes : staleGraph.nodesOf ⟨0, 6⟩ =
      [] ++ ⟨⟨0, 6⟩, ⟨0, 6⟩, .assignment ⟨"y"⟩ ⟨0, 2⟩, []⟩ ::
        [⟨⟨0, 7⟩, ⟨0, 6⟩, .literal (.integer 2), []⟩,
          ⟨⟨0, 8⟩, ⟨0, 6⟩, .assignment ⟨"x"⟩ ⟨0, 7⟩, []⟩] := by
    decide +kernel
  simp only [hp, Except.toOption, Option.map_some, Option.some.injEq, Prod.mk.injEq] at hrecorded
  obtain ⟨hinput, hoperand, hvalue⟩ := hrecorded
  obtain ⟨input, hinput⟩ := Option.isSome_iff_exists.mp hinput
  refine ⟨staleGraph_built, staleGraph_operandsDominate, p, hp, ?_⟩
  intro hfixpoint
  have hyields := (hfixpoint _ input hinput).values _ _ _ hnodes
  simp [Replay.outcome, Constants.analysis, Constants.transfer, Constants.operand, Scene.value?,
    Outcome.single, hoperand, hvalue] at hyields

end FlowFixpoint
