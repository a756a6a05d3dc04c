/-
# FlowFixpoint.Proofs.CopiedValues — nullness ends on every graph.

Operands may refer to nodes ahead of them or to each other in a circle, and a changed value makes
blocks pending although no input has changed. Nullness nevertheless ends, since its nodes either
yield a value of their own or copy the value of one other node: an assignment that of its operand,
and a read that of the assignment that has bound its local last, if that happened in its block and
no test or dereference has bound it since.

Which node is copied does not depend on the run. If following the copies from a node comes to an
end, the node settles once the inputs have stopped changing, after the node it copies. If it does
not, all nodes on the way only ever copy each other: they begin without a value, which reads as
maybe null, and no other value can get in.
-/
import FlowFixpoint.Proofs.NullnessEffects
import FlowFixpoint.Proofs.Settling

namespace FlowFixpoint

open Filter

/-! ## The middle of a walk -/

/-- At any point of a walk a node has the value from before the visit or the one from after it. -/
theorem Setup.Stepped.values_midway {V S : Type} [Store S] [DecidableEq S] [DecidableEq V]
    {s : Setup V S} {p p' : Pass V S} {b : BlockId} {input : Flow S} (hg : s.graph.WellFormed)
    (hforward : s.analysis.direction = .forward) (h : s.Stepped b p p' input)
    {pre post : List Node} (hsplit : s.graph.nodesOf b = pre ++ post) (m : NodeId) :
    (Walk.through s.graph s.analysis p.findings input pre).findings.values[m]? =
        p.findings.values[m]? ∨
      (Walk.through s.graph s.analysis p.findings input pre).findings.values[m]? =
        p'.findings.values[m]? := by
  by_cases hpassed : ∃ k ∈ pre, k.id = m
  · obtain ⟨k, hk, rfl⟩ := hpassed
    refine .inr ?_
    rw [h.values, walkOf_forward hforward, hsplit, Walk.through_values_append]
    exact fun n hn hid => hg.id_ne_of_split hsplit hk hn hid.symm
  · exact .inl (Walk.through_values_of_not_mem _ _ _ _ fun k hk hid => hpassed ⟨k, hk, hid⟩)

namespace Nullness

/-! ## What nodes do to a local -/

/-- The local that a node binds: the target of an assignment, and a local that is dereferenced or
tested. -/
def written? (g : Graph) : NodeKind → Option LocalVar
  | .assignment x _ => some x
  | .fieldRead receiver _ | .call (some receiver) _ _ => g.localRead? receiver
  | .comparison .equal left right | .comparison .notEqual left right => tested? g left right
  | _ => none

/-- Both sides bind the local to the value. -/
def BoundTo (x : LocalVar) (u : Nullness) (φ : Flow NullnessStore) : Prop :=
  ∀ outcome, (φ.side outcome).get? x = some u

/-- The two flows know the same about the local, side by side. -/
def AgreeAt (x : LocalVar) (φ φ' : Flow NullnessStore) : Prop :=
  ∀ outcome, (φ.side outcome).get? x = (φ'.side outcome).get? x

variable {x : LocalVar} {u : Nullness} {φ φ' : Flow NullnessStore} {scene scene' : Scene Nullness}
  {n : Node}

theorem BoundTo.regular (h : BoundTo x u φ) : φ.regular.get? x = some u := by
  have htrue : φ.onTrue.get? x = some u := h true
  have hfalse : φ.onFalse.get? x = some u := h false
  rw [φ.regular_eq_join, Env.get?_join, htrue, hfalse]
  exact congrArg some (join_self u)

theorem AgreeAt.regular (h : AgreeAt x φ φ') : φ.regular.get? x = φ'.regular.get? x := by
  have htrue : φ.onTrue.get? x = φ'.onTrue.get? x := h true
  have hfalse : φ.onFalse.get? x = φ'.onFalse.get? x := h false
  rw [φ.regular_eq_join, φ'.regular_eq_join, Env.get?_join, Env.get?_join, htrue, hfalse]

/-- A read yields what both sides bind its local to. -/
theorem BoundTo.read (h : BoundTo x u φ) :
    (lookup φ.onTrue x).lub (lookup φ.onFalse x) = u := by
  have htrue : φ.onTrue.get? x = some u := h true
  have hfalse : φ.onFalse.get? x = some u := h false
  rw [lookup, lookup, htrue, hfalse]
  exact join_self u

theorem AgreeAt.read (h : AgreeAt x φ φ') :
    (lookup φ.onTrue x).lub (lookup φ.onFalse x) =
      (lookup φ'.onTrue x).lub (lookup φ'.onFalse x) := by
  have htrue : φ.onTrue.get? x = φ'.onTrue.get? x := h true
  have hfalse : φ.onFalse.get? x = φ'.onFalse.get? x := h false
  rw [lookup, lookup, lookup, lookup, htrue, hfalse]

/-- An assignment yields the value of its operand and binds its target to it. -/
theorem transfer_assignment {m : NodeId} (hkind : n.kind = .assignment x m)
    (scene : Scene Nullness) (φ : Flow NullnessStore) :
    (transfer scene n φ).value = some ((scene.value? m).getD maybeNull) ∧
      BoundTo x ((scene.value? m).getD maybeNull) (transfer scene n φ).flow := by
  simp only [transfer, hkind]
  refine ⟨rfl, fun outcome => ?_⟩
  show ((Flow.single (φ.regular.set x ((scene.value? m).getD maybeNull))).side outcome).get? x = _
  simp [Env.get?_set]

/-- What a node does to a local that it does not assign, whatever flows in and whatever is recorded:
it leaves the local alone on each side, joins what the sides know of it, or binds it. -/
inductive Effect (g : Graph) (x : LocalVar) (n : Node) : Prop where
  | keeps (hx : written? g n.kind ≠ some x)
    (h : ∀ (scene : Scene Nullness) φ, scene.graph = g → ∀ outcome,
      ((transfer scene n φ).flow.side outcome).get? x = (φ.side outcome).get? x)
  | joins (hx : written? g n.kind ≠ some x)
    (h : ∀ (scene : Scene Nullness) φ, scene.graph = g → ∀ outcome,
      ((transfer scene n φ).flow.side outcome).get? x = φ.regular.get? x)
  | binds (hx : written? g n.kind = some x) (known : Bool → Nullness)
    (h : ∀ (scene : Scene Nullness) φ, scene.graph = g → ∀ outcome,
      ((transfer scene n φ).flow.side outcome).get? x = some (known outcome))

section Effect

variable {g : Graph}

theorem written?_of_not_assignment (h : ∀ y, ¬ n.Assigns y) :
    written? g n.kind = about? g n.kind := by
  obtain ⟨id, block, kind, trees⟩ := n
  cases kind with
  | assignment y m => exact absurd ⟨m, rfl⟩ (h y)
  | comparison op left right =>
    cases op with
    | equal => exact (about?_of_comparison (.inl rfl)).symm
    | notEqual => exact (about?_of_comparison (.inr rfl)).symm
    | _ => rfl
  | call receiver method arguments => cases receiver <;> rfl
  | _ => rfl

theorem written?_of_about? {y : LocalVar} (h : about? g n.kind = some y) :
    written? g n.kind = some y := by
  rw [written?_of_not_assignment, h]
  rintro z ⟨m, hkind⟩
  rw [hkind] at h
  cases h

/-- Every node has one of the three effects on a local that it does not assign. -/
theorem effect (g : Graph) (hassigns : ¬ n.Assigns x) : Effect g x n := by
  cases passing g n with
  | read y hkind h =>
    exact .keeps (by simp [hkind, written?]) fun scene φ _ outcome => by rw [h]
  | assign y m hkind h =>
    have hyx : y ≠ x := fun hyx => hassigns ⟨m, by rw [hkind, hyx]⟩
    refine .joins (by simpa [hkind, written?] using hyx) fun scene φ _ outcome => ?_
    simp [h, Env.get?_set, hyx]
  | test y hequality habout _ =>
    have hside : ∀ scene φ, scene.graph = g → ∀ outcome, (transfer scene n φ).flow.side outcome =
        (φ.side outcome).set y (learned n.kind outcome) := by
      rintro scene φ rfl outcome
      exact side_of_test hequality habout outcome
    by_cases hyx : y = x
    · refine .binds (by rw [written?_of_about? habout, hyx]) (learned n.kind) ?_
      intro scene φ hscene outcome
      simp [hside scene φ hscene, Env.get?_set, hyx]
    · refine .keeps (by simp [written?_of_about? habout, hyx]) fun scene φ hscene outcome => ?_
      simp [hside scene φ hscene, Env.get?_set, hyx]
  | dereference y _ habout h =>
    by_cases hyx : y = x
    · refine .binds (by rw [written?_of_about? habout, hyx]) (fun _ => nonNull) ?_
      intro scene φ hscene outcome
      simp [h scene φ hscene, Env.get?_set, hyx]
    · refine .joins (by simp [written?_of_about? habout, hyx]) fun scene φ hscene outcome => ?_
      simp [h scene φ hscene, Env.get?_set, hyx]
  | join habout hnone _ h =>
    refine .joins (by simp [written?_of_not_assignment hnone, habout]) ?_
    intro scene φ hscene outcome
    rw [h scene φ hscene, Flow.side_single]

end Effect

theorem not_assigns_of_written {g : Graph} (hx : written? g n.kind ≠ some x) : ¬ n.Assigns x := by
  rintro ⟨m, hkind⟩
  exact hx (by rw [hkind]; rfl)

/-- A node leaves a binding alone that it does not write. -/
theorem BoundTo.transfer (h : BoundTo x u φ) (hx : written? scene.graph n.kind ≠ some x) :
    BoundTo x u (transfer scene n φ).flow := by
  intro outcome
  cases effect scene.graph (not_assigns_of_written hx) with
  | keeps _ heffect => rw [heffect scene φ rfl, h outcome]
  | joins _ heffect => rw [heffect scene φ rfl, h.regular]
  | binds hwritten => exact absurd hwritten hx

/-- Flows that agree on a local still do after a node that does not assign it. -/
theorem AgreeAt.transfer (h : AgreeAt x φ φ') (hgraph : scene'.graph = scene.graph)
    (hassigns : ¬ n.Assigns x) :
    AgreeAt x (transfer scene n φ).flow (Nullness.transfer scene' n φ').flow := by
  intro outcome
  cases effect scene.graph hassigns with
  | keeps _ heffect => rw [heffect scene φ rfl, heffect scene' φ' hgraph, h outcome]
  | joins _ heffect => rw [heffect scene φ rfl, heffect scene' φ' hgraph, h.regular]
  | binds _ known heffect => rw [heffect scene φ rfl, heffect scene' φ' hgraph]

/-- After a test or a dereference of a local any two flows agree on it. -/
theorem agreeAt_of_written (hx : written? scene.graph n.kind = some x) (hassigns : ¬ n.Assigns x)
    (hgraph : scene'.graph = scene.graph) :
    AgreeAt x (transfer scene n φ).flow (transfer scene' n φ').flow := by
  intro outcome
  cases effect scene.graph hassigns with
  | keeps hne => exact absurd hx hne
  | joins hne => exact absurd hx hne
  | binds _ known heffect => rw [heffect scene φ rfl, heffect scene' φ' hgraph]

/-! ## Copies -/

/-- The last of some nodes that binds the local. -/
def lastWriter? (g : Graph) (x : LocalVar) (ns : List Node) : Option Node :=
  ns.reverse.find? fun n => written? g n.kind = some x

/-- The node that a node behind some others in its block copies: the operand of an assignment, and
for a read the last of the others that has bound its local, if that is an assignment. -/
def copied? (g : Graph) (pre : List Node) (n : Node) : Option NodeId :=
  match n.kind with
  | .assignment _ operand => some operand
  | .localRead x =>
    (lastWriter? g x pre).bind fun k =>
      match k.kind with
      | .assignment _ _ => some k.id
      | _ => none
  | _ => none

section Walks

variable {g : Graph} {f f' : Findings Nullness NullnessStore} {input : Flow NullnessStore}
  {pre : List Node}

theorem lastWriter?_concat (g : Graph) (x : LocalVar) (ns : List Node) (n : Node) :
    lastWriter? g x (ns ++ [n]) =
      if written? g n.kind = some x then some n else lastWriter? g x ns := by
  by_cases hx : written? g n.kind = some x <;> simp [lastWriter?, hx]

/-- Behind an assignment that has bound a local last, the flow binds the local to the value that is
recorded for the assignment. -/
theorem boundTo_of_lastWriter? (f : Findings Nullness NullnessStore) (input : Flow NullnessStore)
    (hnodup : (pre.map Node.id).Nodup) {k : Node} (hlast : lastWriter? g x pre = some k)
    (hassigns : k.Assigns x) :
    ∃ u, BoundTo x u (Walk.through g analysis f input pre).last.flow ∧
      (Walk.through g analysis f input pre).findings.values[k.id]? = some u := by
  induction pre using List.reverseRecOn with
  | nil => simp [lastWriter?] at hlast
  | append_singleton pre n ih =>
    rw [lastWriter?_concat] at hlast
    rw [Walk.through_concat, Walk.step_values, Walk.step_last]
    by_cases hx : written? g n.kind = some x
    · obtain rfl : n = k := by simpa [hx] using hlast
      obtain ⟨m, hkind⟩ := hassigns
      obtain ⟨hvalue, hbound⟩ := transfer_assignment hkind
        ⟨g, (Walk.through g analysis f input pre).findings.values, false⟩
        (Walk.through g analysis f input pre).last.flow
      refine ⟨_, hbound, ?_⟩
      rw [if_pos rfl]
      exact congrArg (Option.or · _) hvalue
    · rw [if_neg hx] at hlast
      rw [List.map_append, List.nodup_append] at hnodup
      obtain ⟨u, hbound, hvalue⟩ := ih hnodup.1 hlast
      have hk : k ∈ pre := List.mem_reverse.mp (List.mem_of_find?_eq_some hlast)
      have hne : n.id ≠ k.id := fun hid =>
        hnodup.2.2 k.id (List.mem_map_of_mem hk) n.id (by simp) hid.symm
      rw [if_neg hne]
      exact ⟨u, hbound.transfer hx, hvalue⟩

/-- Unless an assignment has bound the local last, two walks from the same input agree on it. -/
theorem agreeAt_of_lastWriter? (hlast : ∀ k, lastWriter? g x pre = some k → ¬ k.Assigns x) :
    AgreeAt x (Walk.through g analysis f input pre).last.flow
      (Walk.through g analysis f' input pre).last.flow := by
  induction pre using List.reverseRecOn with
  | nil => exact fun _ => rfl
  | append_singleton pre n ih =>
    rw [Walk.through_concat, Walk.step_last, Walk.through_concat, Walk.step_last]
    simp only [lastWriter?_concat] at hlast
    by_cases hx : written? g n.kind = some x
    · exact agreeAt_of_written hx (hlast n (by rw [if_pos hx])) rfl
    · refine (ih fun k hk => hlast k ?_).transfer rfl (not_assigns_of_written hx)
      rw [if_neg hx, hk]

/-- A node that copies another one yields what is recorded for that one where it stands. -/
theorem value_of_copied {m : NodeId} (hnodup : (pre.map Node.id).Nodup)
    (h : copied? g pre n = some m) :
    (Walk.through g analysis f input (pre ++ [n])).last.value =
      some (((Walk.through g analysis f input pre).findings.values[m]?).getD maybeNull) := by
  rw [Walk.through_concat, Walk.step_last]
  unfold copied? at h
  split at h
  · next y operand hkind =>
    obtain rfl := Option.some.inj h
    exact (transfer_assignment hkind _ _).1
  · next y hkind =>
    obtain ⟨k, hlast, hk⟩ := Option.bind_eq_some_iff.mp h
    split at hk
    · next z operand hassign =>
      obtain rfl := Option.some.inj hk
      have hassigns : k.Assigns y := by
        have hwritten := List.find?_some hlast
        simp only [hassign, written?, decide_eq_true_eq, Option.some.injEq] at hwritten
        exact ⟨operand, by rw [hassign, hwritten]⟩
      obtain ⟨u, hbound, hvalue⟩ := boundTo_of_lastWriter? f input hnodup hlast hassigns
      rw [hvalue, Option.getD_some, ← hbound.read]
      simp only [analysis, transfer, hkind, Outcome.keep]
    · cases hk
  · cases h

/-- A node that copies none yields the same in all walks from the same input. -/
theorem value_of_not_copied (h : copied? g pre n = none) :
    (Walk.through g analysis f input (pre ++ [n])).last.value =
      (Walk.through g analysis f' input (pre ++ [n])).last.value := by
  rw [Walk.through_concat, Walk.step_last, Walk.through_concat, Walk.step_last]
  obtain ⟨id, block, kind, trees⟩ := n
  cases kind with
  | localRead x =>
    refine congrArg some (AgreeAt.read (agreeAt_of_lastWriter? fun k hlast => ?_))
    rintro ⟨m, hassign⟩
    simp [copied?, hlast, hassign] at h
  | assignment x m => simp [copied?] at h
  | comparison op left right =>
    cases op with
    | equal | notEqual => exact (value_test _ _ _ _ _ _).trans (value_test _ _ _ _ _ _).symm
    | less | lessOrEqual | greater | greaterOrEqual => rfl
  | call receiver method arguments => cases receiver <;> rfl
  | literal | declaration | arithmetic | logical | not | minus | fieldRead | creation | ret
  | throwing | marker => rfl

end Walks

/-! ## Following the copies -/

/-- The node that a node copies where it stands. -/
def source? (g : Graph) (n : NodeId) : Option NodeId :=
  (g.node? n).bind fun node =>
    copied? g ((g.nodesOf node.block).takeWhile fun k => k.id ≠ n) node

/-- Following the copies from the node comes to an end. -/
def Traceable (g : Graph) (n : NodeId) : Prop := Acc (fun m n => source? g n = some m) n

section Graphs

variable {g : Graph} (hg : g.WellFormed) {b : BlockId} {pre post : List Node}

include hg

theorem source?_eq (hsplit : g.nodesOf b = pre ++ n :: post) :
    source? g n.id = copied? g pre n := by
  have hmem : n ∈ g.nodesOf b := by simp [hsplit]
  obtain ⟨hblock, hnode⟩ := hg.block_of_mem_nodesOf hmem
  have hbefore : ∀ k ∈ pre, decide (k.id ≠ n.id) = true := fun k hk =>
    decide_eq_true (hg.id_ne_of_split hsplit hk List.mem_cons_self)
  simp only [source?, hnode, Option.bind_some, hblock, hsplit]
  rw [List.takeWhile_append_of_pos hbefore, List.takeWhile_cons_of_neg (by simp), List.append_nil]

omit hg in
/-- A node whose copies do not come to an end copies another such node. -/
theorem exists_source_of_not_traceable {m : NodeId} (h : ¬ Traceable g m) :
    ∃ k, source? g m = some k ∧ ¬ Traceable g k := by
  by_contra hnone
  push Not at hnone
  exact h (.intro m hnone)

/-- Nothing is known of a node whose copies do not come to an end. -/
def Uncertain (g : Graph) (values : Std.ExtTreeMap NodeId Nullness) : Prop :=
  ∀ m, ¬ Traceable g m → values[m]?.getD maybeNull = maybeNull

/-- A node whose copies do not come to an end yields that nothing is known, if nothing is known of
the others. -/
theorem value_of_not_traceable {f : Findings Nullness NullnessStore} {input : Flow NullnessStore}
    (hsplit : g.nodesOf b = pre ++ n :: post)
    (hpre : Uncertain g (Walk.through g analysis f input pre).findings.values)
    (hn : ¬ Traceable g n.id) :
    (Walk.through g analysis f input (pre ++ [n])).last.value = some maybeNull := by
  obtain ⟨m, hsource, hm⟩ := exists_source_of_not_traceable hn
  have hcopied : copied? g pre n = some m := (source?_eq hg hsplit).symm.trans hsource
  rw [value_of_copied (hg.nodup_of_split hsplit) hcopied, hpre m hm]

/-- Walking keeps the uncertainty. -/
theorem Uncertain.through {f : Findings Nullness NullnessStore} (hf : Uncertain g f.values)
    (input : Flow NullnessStore) (hsplit : g.nodesOf b = pre ++ post) :
    Uncertain g (Walk.through g analysis f input pre).findings.values := by
  induction pre using List.reverseRecOn generalizing post with
  | nil => exact hf
  | append_singleton pre n ih =>
    have hsplit' : g.nodesOf b = pre ++ n :: post := by simp [hsplit]
    intro m hm
    rw [Walk.through_concat, Walk.step_values]
    split
    · next hid =>
      have hvalue := value_of_not_traceable hg hsplit' (ih hsplit') (hid ▸ hm)
      rw [Walk.through_concat] at hvalue
      rw [hvalue]
      rfl
    · exact ih hsplit' m hm

end Graphs

/-! ## Settling -/

section Runs

variable {s : Setup Nullness NullnessStore} {f : ℕ → Pass Nullness NullnessStore}
  {v : ℕ → BlockId} (ha : s.analysis = analysis) (h : s.Endless f v)

include ha h

/-- In no state of a run anything is known of a node whose copies do not come to an end. -/
theorem uncertain (i : ℕ) : Uncertain s.graph (f i).findings.values := by
  induction i with
  | zero =>
    intro m _
    simp [h.starts.started.values]
  | succ i ih =>
    obtain ⟨input, hstep⟩ := h.stepped i
    rw [hstep.values, Setup.walkOf_forward (ha ▸ rfl), ha]
    exact ih.through h.starts.wellFormed input (List.append_nil _).symm

variable (hcalm : Setup.AllCalm f)

include hcalm

/-- A node settles after the node that it copies, if the copies come to an end. -/
theorem settles_of_traceable {m : NodeId} (hm : Traceable s.graph m) : Setup.Settles f m := by
  have hg := h.starts.wellFormed
  induction hm with
  | intro m _ ih =>
    refine h.settles_of_listed ?_
    rintro b pre n post hsplit rfl
    have hsource := source?_eq hg hsplit
    cases hcopied : copied? s.graph pre n with
    | none =>
      refine h.settles_of_walks (N := 0) (ha ▸ rfl) (ha ▸ readsOnly) hcalm hsplit ?_
      intro i j input _ _ _ _
      rw [ha]
      exact value_of_not_copied hcopied
    | some k =>
      obtain ⟨x, hx⟩ := ih k (hsource.trans hcopied)
      obtain ⟨N, hN⟩ := eventually_atTop.mp hx
      -- a late walk finds the settled value of `k` when it comes to `n`
      have hfinds : ∀ i input, N ≤ i → s.Stepped b (f i) (f (i + 1)) input →
          (Walk.through s.graph s.analysis (f i).findings input pre).findings.values[k]? = x := by
        intro i input hi hstep
        rcases hstep.values_midway hg (ha ▸ rfl) hsplit k with hold | hnew
        · rw [hold, hN i hi]
        · rw [hnew, hN (i + 1) (by omega)]
      refine h.settles_of_walks (N := N) (ha ▸ rfl) (ha ▸ readsOnly) hcalm hsplit ?_
      intro i j input hi hj hstepi hstepj
      have hfindi := hfinds i input hi hstepi
      have hfindj := hfinds j input hj hstepj
      have hnodup := hg.nodup_of_split hsplit
      rw [ha] at hfindi hfindj ⊢
      rw [value_of_copied hnodup hcopied, value_of_copied hnodup hcopied, hfindi, hfindj]

/-- Every node settles. -/
theorem settles (m : NodeId) : Setup.Settles f m := by
  have hg := h.starts.wellFormed
  by_cases hm : Traceable s.graph m
  · exact settles_of_traceable ha h hcalm hm
  · refine h.settles_of_listed ?_
    rintro b pre n post hsplit rfl
    refine h.settles_of_walks (N := 0) (ha ▸ rfl) (ha ▸ readsOnly) hcalm hsplit ?_
    intro i j input _ _ _ _
    have hyields : ∀ i,
        (Walk.through s.graph analysis (f i).findings input (pre ++ [n])).last.value =
          some maybeNull := fun i =>
      value_of_not_traceable hg hsplit ((uncertain ha h i).through hg input hsplit) hm
    rw [ha, hyields i, hyields j]

end Runs

/-! ## Runs that end -/

theorem mem_locals_of_tested? {g : Graph} {l r : NodeId} (h : tested? g l r = some x) :
    x ∈ g.locals := by
  unfold tested? at h
  split at h
  · exact Graph.mem_locals_of_localRead? h
  · split at h
    · exact Graph.mem_locals_of_localRead? h
    · cases h

/-- No store binds any but the locals of the graph. -/
theorem keeps (g : Graph) : analysis.Keeps g (Env.Within g.locals) where
  seeds b store hseed := by
    obtain ⟨-, rfl⟩ := Prod.mk.inj (List.mem_singleton.mp hseed)
    exact Env.within_parameters g maybeNull
  joins _ _ hx hy := hx.join hy
  transfer scene n φ hgraph hnode hφ := by
    have hregular : φ.regular.Within g.locals := hφ.regular fun _ _ hx hy => hx.join hy
    have hsingle : ∀ value : Option Nullness,
        (Outcome.single value φ.regular).All (Env.Within g.locals) :=
      fun _ => Outcome.all_of_flow (Flow.all_single hregular)
    have htest : ∀ t f l r, (test scene t f l r φ).All (Env.Within g.locals) := by
      intro t f l r
      unfold test
      split
      · exact hsingle _
      · next x htested =>
        have hx : x ∈ g.locals := hgraph ▸ mem_locals_of_tested? htested
        exact Outcome.all_of_flow (Flow.all_split ((hφ true).set hx _) ((hφ false).set hx _))
    have hdereference : ∀ receiver, (dereference scene receiver φ).All (Env.Within g.locals) := by
      intro receiver
      refine ⟨Flow.all_single ?_, fun entry hentry => ?_⟩
      · split
        · next x hread => exact hregular.set (hgraph ▸ Graph.mem_locals_of_localRead? hread) _
        · exact hregular
      · obtain rfl := List.mem_singleton.mp hentry
        exact hregular
    obtain ⟨id, block, kind, trees⟩ := n
    cases kind with
    | localRead x => exact Outcome.all_of_flow hφ
    | assignment x m =>
      have hx : x ∈ g.locals := Graph.mem_locals_of_node hnode rfl
      exact Outcome.all_of_flow (Flow.all_single (hregular.set hx _))
    | comparison op left right =>
      cases op with
      | equal => exact htest null nonNull left right
      | notEqual => exact htest nonNull null left right
      | less | lessOrEqual | greater | greaterOrEqual => exact hsingle _
    | fieldRead receiver field => exact hdereference receiver
    | call receiver method arguments =>
      cases receiver with
      | none => exact hsingle _
      | some receiver => exact hdereference receiver
    | literal | declaration | arithmetic | logical | not | minus | creation | ret | throwing
    | marker => exact hsingle _

/-- Nullness ends on every graph, however its nodes refer to each other; one number of visits is
enough for all settings. -/
theorem terminates_on_every_graph (g : Graph) (hg : g.Built) :
    ∃ enough, ∀ settings : Settings, enough ≤ settings.maxVisits →
      ∃ p, analysis.solve settings g = .ok p := by
  refine Analysis.exists_enough_of_settles rfl (height.env g.locals) hg.wellFormed (keeps g) ?_
  rintro s f v rfl ha h hcalm
  exact settles ha h hcalm

/-! ## Copies in a circle -/

/-- A loop of the blocks 3 and 4. In block 3 the nodes 0, 2 and 1 copy each other in a circle, and
node 4 copies node 6 ahead of it, which will be null. -/
def circularCopies : Graph :=
  .ofSteps (.loose "")
    [.addBlock .regular, .addBlock .conditional,
      .push ⟨0, 3⟩ (.assignment ⟨"x"⟩ ⟨0, 2⟩), .push ⟨0, 3⟩ (.localRead ⟨"x"⟩),
      .push ⟨0, 3⟩ (.assignment ⟨"y"⟩ ⟨0, 1⟩), .push ⟨0, 3⟩ (.localRead ⟨"z"⟩),
      .push ⟨0, 3⟩ (.assignment ⟨"w"⟩ ⟨0, 6⟩), .push ⟨0, 3⟩ (.literal .null),
      .push ⟨0, 3⟩ (.assignment ⟨"z"⟩ ⟨0, 5⟩),
      .addEdge ⟨0, 0⟩ ⟨0, 3⟩ .unconditional, .addEdge ⟨0, 3⟩ ⟨0, 4⟩ .unconditional,
      .addEdge ⟨0, 4⟩ ⟨0, 3⟩ .onTrue, .addEdge ⟨0, 4⟩ ⟨0, 1⟩ .onFalse]

/-- Nullness ends there, although the circle of copies has no beginning. -/
theorem circularCopies_terminates :
    circularCopies.Built ∧ source? circularCopies ⟨0, 0⟩ = some ⟨0, 2⟩ ∧
      source? circularCopies ⟨0, 2⟩ = some ⟨0, 1⟩ ∧ source? circularCopies ⟨0, 1⟩ = some ⟨0, 0⟩ ∧
      ∃ enough, ∀ settings : Settings, enough ≤ settings.maxVisits →
        ∃ p, analysis.solve settings circularCopies = .ok p := by
  have hbuilt : circularCopies.Built := Graph.built_ofSteps (by decide +kernel)
  exact ⟨hbuilt, by decide +kernel, by decide +kernel, by decide +kernel,
    terminates_on_every_graph circularCopies hbuilt⟩

end Nullness

end FlowFixpoint
