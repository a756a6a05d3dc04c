/-
# FlowFixpoint.Proofs.StraightLine — constant propagation is an evaluator on straight-line code.

`Knowledge` is what a direct evaluation of nodes knows: of each local and of each node an integer, or
nothing. It starts out knowing nothing, parameters included, and arithmetic on known operands is
known where checked arithmetic has a result.

Where flow goes from the entry through one block to the exit, each block is visited once, and the
walk through the block finds no values but its own. `Reflects` ties the walk to the evaluation: the
store and the table of values hold what is known, and an unknown value where nothing is known. An
equality test would put more into the store than an evaluation knows, so the block holds none. Which
nodes a node names as its operands does not matter: one that has not been passed is unknown to both.
-/
import FlowFixpoint.Proofs.MachineArithmetic
import FlowFixpoint.Proofs.NodeFreeBlocks
import FlowFixpoint.Proofs.OnePass

namespace FlowFixpoint

/-! ## Evaluation -/

/-- What is known of the locals and of the results of nodes. -/
structure Knowledge where
  locals : LocalVar → Option Int64
  results : NodeId → Option Int64

namespace Knowledge

/-- Nothing is known. -/
def nothing : Knowledge := ⟨fun _ => none, fun _ => none⟩

/-- What a node evaluates to, if that is known. -/
def result? (σ : Knowledge) : NodeKind → Option Int64
  | .literal (.integer k) => some k
  | .localRead x => σ.locals x
  | .assignment _ m => σ.results m
  | .arithmetic op left right =>
    (σ.results left).bind fun l => (σ.results right).bind fun r => op.checked? l r
  | .minus m => (σ.results m).bind negated?
  | _ => none

/-- What is known after a node has been evaluated. -/
def after (σ : Knowledge) (n : Node) : Knowledge where
  locals x :=
    match n.kind with
    | .assignment y _ => if x = y then σ.result? n.kind else σ.locals x
    | _ => σ.locals x
  results m := if m = n.id then σ.result? n.kind else σ.results m

/-- Evaluates nodes one after the other. -/
def evaluate (ns : List Node) : Knowledge := ns.foldl after nothing

theorem evaluate_concat (ns : List Node) (n : Node) :
    evaluate (ns ++ [n]) = (evaluate ns).after n := by
  simp [evaluate]

theorem locals_after_assignment {n : Node} {y : LocalVar} {m : NodeId}
    (h : n.kind = .assignment y m) (σ : Knowledge) (x : LocalVar) :
    (σ.after n).locals x = if x = y then σ.results m else σ.locals x := by
  simp [after, result?, h]

theorem locals_after_of_not_assigns {n : Node} (h : ∀ x, ¬ n.Assigns x) (σ : Knowledge) :
    (σ.after n).locals = σ.locals := by
  funext x
  simp only [after]
  split
  · next y m hkind => exact absurd ⟨m, hkind⟩ (h y)
  · rfl

end Knowledge

/-! ## One node -/

namespace Constants

open Knowledge (evaluate)

section Node

variable {σ : Knowledge} {scene : Scene Constant} {store : ConstantStore} {n : Node}

theorem fold_ofOption (op : ArithOp) (l r : Option Int64) :
    fold op (ofOption l) (ofOption r) =
      ofOption (l.bind fun l => r.bind fun r => op.checked? l r) := by
  cases l with
  | none => cases r <;> rfl
  | some l =>
    cases r with
    | none => rfl
    | some r =>
      show ofOption (compute? op l r) = ofOption (op.checked? l r)
      rw [compute?_eq_checked?]

theorem negate_ofOption (k : Option Int64) : negate (ofOption k) = ofOption (k.bind negated?) := by
  cases k with
  | none => rfl
  | some k =>
    show ofOption (Integer.checked? (-k.toInt)) = ofOption (negated? k)
    rw [checked?_neg]

/-- Where store and values hold what is known, a node that gets a value gets what it evaluates to. -/
theorem value_eq (hlocals : ∀ x, lookup store x = ofOption (σ.locals x))
    (hresults : ∀ m, operand scene m = ofOption (σ.results m)) :
    (transfer scene n (.single store)).value =
      if gives n.kind then some (ofOption (σ.result? n.kind)) else none := by
  cases hkind : n.kind with
  | literal l => cases l <;> simp [transfer, hkind, gives, Knowledge.result?, ofOption,
      Outcome.single, Outcome.pass]
  | localRead x =>
    have hself : (lookup store x).lub (lookup store x) = lookup store x := join_self _
    have hvalue : (transfer scene n (.single store)).value =
        some ((lookup store x).lub (lookup store x)) := by
      simp only [transfer, hkind]
      rfl
    rw [hvalue, hself, hlocals]
    rfl
  | assignment x m => simp [transfer, hkind, gives, Knowledge.result?, Outcome.single, hresults]
  | arithmetic op l r =>
    simp [transfer, hkind, gives, Knowledge.result?, Outcome.single, hresults, fold_ofOption]
  | minus m =>
    simp [transfer, hkind, gives, Knowledge.result?, Outcome.single, hresults, negate_ofOption]
  | comparison op l r =>
    cases op <;> simp [transfer, hkind, gives, Outcome.pass, Outcome.single, value_equality]
  | _ => simp [transfer, hkind, gives, Outcome.pass, Outcome.single]

theorem result?_of_not_gives (h : gives n.kind = false) (σ : Knowledge) :
    σ.result? n.kind = none := by
  unfold gives at h
  unfold Knowledge.result?
  split at h <;> simp_all

end Node

/-! ## Along a walk -/

/-- A store and a table of values hold what an evaluation of nodes knows: they bind the parameters,
the locals assigned and the nodes that get a value, and no others. -/
structure Reflects (parameters : List LocalVar) (ns : List Node) (store : ConstantStore)
    (values : Std.ExtTreeMap NodeId Constant) : Prop where
  locals : ∀ x, lookup store x = ofOption ((evaluate ns).locals x)
  bound : ∀ x, (store.get? x).isSome ↔ x ∈ parameters ∨ ∃ n ∈ ns, n.Assigns x
  results : ∀ m, (values[m]?).getD .top = ofOption ((evaluate ns).results m)
  valued : ∀ m, (values[m]?).isSome ↔ ∃ n ∈ ns, n.id = m ∧ gives n.kind = true

theorem lookup_set (store : ConstantStore) (x y : LocalVar) (c : Constant) :
    lookup (store.set x c) y = if y = x then c else lookup store y := by
  simp only [lookup, Env.get?_set, eq_comm (a := y)]
  split <;> rfl

/-- Before the first node nothing is known, and only the parameters are bound. -/
theorem reflects_nil (code : CodeUnit) {values : Std.ExtTreeMap NodeId Constant}
    (hvalues : ∀ m : NodeId, values[m]? = none) :
    Reflects code.parameters [] (initial code) values := by
  have hbound : ∀ x, ((initial code).get? x).isSome ↔ x ∈ code.parameters := by
    intro x
    constructor
    · refine Env.within_ofList (fun e he => ?_) x
      obtain ⟨y, hy, rfl⟩ := List.mem_map.mp he
      exact hy
    · intro hx
      rw [get?_initial hx]
      rfl
  refine ⟨fun x => ?_, fun x => by simp [hbound], fun m => by rw [hvalues]; rfl,
    fun m => by simp [hvalues]⟩
  show ((initial code).get? x).getD .top = .top
  by_cases hx : x ∈ code.parameters
  · rw [get?_initial hx]
    rfl
  · rw [← hbound, Option.not_isSome_iff_eq_none] at hx
    rw [hx]
    rfl

namespace Reflects

variable {parameters : List LocalVar} {ns : List Node} {store : ConstantStore}
  {values values' : Std.ExtTreeMap NodeId Constant} {scene : Scene Constant} {n : Node}

/-- A node that assigns a local binds it to what is known of the value. -/
theorem assign (h : Reflects parameters ns store values) {x : LocalVar} {m : NodeId}
    (hkind : n.kind = .assignment x m) :
    (∀ y, lookup (store.set x (ofOption ((evaluate ns).results m))) y =
      ofOption ((evaluate (ns ++ [n])).locals y)) ∧
    ∀ y, ((store.set x (ofOption ((evaluate ns).results m))).get? y).isSome ↔
      y ∈ parameters ∨ ∃ k ∈ ns ++ [n], k.Assigns y := by
  constructor
  · intro y
    rw [lookup_set, Knowledge.evaluate_concat, Knowledge.locals_after_assignment hkind, h.locals]
    split <;> rfl
  · intro y
    have hassigns : n.Assigns y ↔ x = y := by simp [Node.Assigns, hkind]
    rw [Env.get?_set]
    simp only [List.mem_append, List.mem_singleton, or_and_right, exists_or, exists_eq_left,
      hassigns, ← or_assoc, ← h.bound]
    split <;> simp_all

/-- A node that gets a value gets what it evaluates to, and no other node does. -/
theorem record (h : Reflects parameters ns store values) (hfresh : ∀ k ∈ ns, k.id ≠ n.id)
    (hvalues : ∀ m, values'[m]? = if n.id = m
      then (if gives n.kind then some (ofOption ((evaluate ns).result? n.kind)) else none).or
        values[m]?
      else values[m]?) :
    (∀ m, (values'[m]?).getD .top = ofOption ((evaluate (ns ++ [n])).results m)) ∧
      ∀ m, (values'[m]?).isSome ↔ ∃ k ∈ ns ++ [n], k.id = m ∧ gives k.kind = true := by
  -- nothing has been recorded for the node before
  have hnone : values[n.id]? = none := by
    rw [← Option.not_isSome_iff_eq_none, h.valued]
    rintro ⟨k, hk, hid, -⟩
    exact hfresh k hk hid
  constructor
  · intro m
    rw [Knowledge.evaluate_concat, hvalues]
    show _ = ofOption (if m = n.id then (evaluate ns).result? n.kind else (evaluate ns).results m)
    by_cases hm : n.id = m
    · subst hm
      rw [if_pos rfl, if_pos rfl, hnone]
      cases hgives : gives n.kind with
      | true => rfl
      | false =>
        rw [result?_of_not_gives hgives]
        rfl
    · rw [if_neg hm, if_neg (Ne.symm hm), h.results]
  · intro m
    rw [hvalues]
    by_cases hm : n.id = m
    · subst hm
      have hothers : ¬ ∃ k ∈ ns, k.id = n.id ∧ gives k.kind = true :=
        fun ⟨k, hk, hid, _⟩ => hfresh k hk hid
      cases hgives : gives n.kind <;> simp_all
    · rw [if_neg hm, h.valued]
      simp [hm, or_and_right, exists_or]

/-- One more node keeps a walk and an evaluation together. -/
theorem step (h : Reflects parameters ns store values) (hscene : scene.values = values)
    (hfresh : ∀ k ∈ ns, k.id ≠ n.id) (htest : n.kind.isEquality = false)
    (hvalues : ∀ m, values'[m]? = if n.id = m
      then (transfer scene n (.single store)).value.or values[m]? else values[m]?) :
    ∃ store', (transfer scene n (.single store)).flow = .single store' ∧
      Reflects parameters (ns ++ [n]) store' values' := by
  have hresults : ∀ m, operand scene m = ofOption ((evaluate ns).results m) := by
    intro m
    rw [operand, Scene.value?, hscene, h.results]
  rw [value_eq h.locals hresults] at hvalues
  obtain ⟨hrecorded, hvalued⟩ := h.record hfresh hvalues
  by_cases hassigns : ∃ x, n.Assigns x
  · obtain ⟨x, m, hkind⟩ := hassigns
    obtain ⟨hlocals, hbound⟩ := h.assign hkind
    refine ⟨_, ?_, hlocals, hbound, hrecorded, hvalued⟩
    simp only [transfer, hkind, hresults]
    rfl
  · have hnone : ∀ x, ¬ n.Assigns x := fun x hx => hassigns ⟨x, hx⟩
    refine ⟨store, ?_, ?_, ?_, hrecorded, hvalued⟩
    · rcases flow_transfer scene (.single store) hnone htest with hflow | hflow <;> exact hflow
    · intro x
      rw [Knowledge.evaluate_concat, Knowledge.locals_after_of_not_assigns hnone, h.locals]
    · intro x
      simp [h.bound, or_and_right, exists_or, hnone]

end Reflects

/-- A walk from the store at the entry that finds no values but its own is an evaluation. -/
theorem reflects_through (code : CodeUnit) (g : Graph) {f : Findings Constant ConstantStore}
    (hvalues : ∀ m : NodeId, f.values[m]? = none) {ns : List Node} (hnodup : (ns.map Node.id).Nodup)
    (htests : ∀ n ∈ ns, n.kind.isEquality = false) :
    ∃ store, (Walk.through g analysis f (.single (initial code)) ns).last.flow = .single store ∧
      Reflects code.parameters ns store
        (Walk.through g analysis f (.single (initial code)) ns).findings.values := by
  induction ns using List.reverseRecOn with
  | nil => exact ⟨initial code, rfl, reflects_nil code hvalues⟩
  | append_singleton ns n ih =>
    rw [List.map_append, List.nodup_append] at hnodup
    obtain ⟨hns, -, hdisjoint⟩ := hnodup
    have hfresh : ∀ k ∈ ns, k.id ≠ n.id := fun k hk =>
      hdisjoint k.id (List.mem_map_of_mem hk) n.id (by simp)
    obtain ⟨store, hflow, hreflects⟩ := ih hns fun k hk => htests k (by simp [hk])
    rw [Walk.through_concat]
    -- without tests the flow stays one store, which is all that the next node sees
    have hlast := Walk.step_last (g := g) (a := analysis)
      (Walk.through g analysis f (.single (initial code)) ns) n
    rw [hflow] at hlast
    rw [hlast]
    refine hreflects.step rfl hfresh (htests n (by simp)) fun m => ?_
    rw [Walk.step_values, hlast]
    rfl

end Constants

/-! ## Straight lines -/

theorem Graph.entry_mem_starts (g : Graph) : g.entry ∈ Direction.forward.starts g :=
  List.mem_singleton_self _

theorem Graph.regularExit_mem_starts (g : Graph) : g.regularExit ∈ Direction.backward.starts g :=
  List.mem_cons_self

/-- Flow goes from the entry through one regular block to the regular exit. -/
structure Graph.StraightLine (g : Graph) (body : BlockId) : Prop where
  built : g.Built
  regular : (g.block? body).map Block.kind = some .regular
  edges : g.edges.Perm
    [⟨g.entry, body, .unconditional⟩, ⟨body, g.regularExit, .unconditional⟩]

namespace Graph.StraightLine

variable {g : Graph} {body : BlockId} (h : g.StraightLine body)

include h

theorem ne_of_starts {d : Direction} {b : BlockId} (hb : b ∈ d.starts g) : body ≠ b := by
  rintro rfl
  obtain ⟨block, kind, hblock, hkind⟩ := h.built.wellFormed.kind_of_starts hb
  have hregular := h.regular
  simp [hblock, hkind] at hregular

theorem ne_entry : body ≠ g.entry := h.ne_of_starts g.entry_mem_starts

theorem ne_exit : body ≠ g.regularExit := h.ne_of_starts g.regularExit_mem_starts

omit h in
theorem entry_ne_exit (g : Graph) : g.entry ≠ g.regularExit := by simp [entry, regularExit]

theorem predecessors_body : g.predecessors body = [⟨g.entry, body, .unconditional⟩] := by
  have hperm := (h.built.wellFormed.predecessors_perm body).trans
    (h.edges.filter fun e => e.target = body)
  simpa [h.ne_exit.symm] using hperm

theorem predecessors_exit :
    g.predecessors g.regularExit = [⟨body, g.regularExit, .unconditional⟩] := by
  have hperm := (h.built.wellFormed.predecessors_perm g.regularExit).trans
    (h.edges.filter fun e => e.target = g.regularExit)
  simpa [h.ne_exit] using hperm

theorem flowsTo {b c : BlockId} (hflow : g.FlowsTo .forward b c) :
    b = g.entry ∧ c = body ∨ b = body ∧ c = g.regularExit := by
  obtain ⟨e, he, rfl, rfl⟩ := hflow
  rcases List.mem_pair.mp (h.edges.mem_iff.mp he) with rfl | rfl
  · exact .inl ⟨rfl, rfl⟩
  · exact .inr ⟨rfl, rfl⟩

theorem reaches {b : BlockId} (hb : g.Reaches .forward b) :
    b = g.entry ∨ b = body ∨ b = g.regularExit := by
  rcases hb.cases with hstart | ⟨e, he, -, rfl⟩
  · exact .inl (List.mem_singleton.mp hstart)
  · rcases h.flowsTo ⟨e, he, rfl, rfl⟩ with ⟨-, hhead⟩ | ⟨-, hhead⟩
    · exact .inr (.inl hhead)
    · exact .inr (.inr hhead)

theorem acyclic : g.Acyclic .forward := by
  -- flow only goes on towards the exit
  have hforward : ∀ b c, Relation.TransGen (g.FlowsTo .forward) b c →
      c = body ∧ b = g.entry ∨ c = g.regularExit ∧ b ≠ g.regularExit := by
    intro b c hpath
    induction hpath with
    | single hflow =>
      rcases h.flowsTo hflow with ⟨rfl, rfl⟩ | ⟨rfl, rfl⟩
      · exact .inl ⟨rfl, rfl⟩
      · exact .inr ⟨rfl, h.ne_exit⟩
    | tail _ hflow ih =>
      rcases h.flowsTo hflow with ⟨hc, -⟩ | ⟨-, rfl⟩
      · rcases ih with ⟨hbody, -⟩ | ⟨hexit, -⟩
        · exact absurd (hbody.symm.trans hc) h.ne_entry
        · exact absurd (hc.symm.trans hexit) (entry_ne_exit g)
      · rcases ih with ⟨-, rfl⟩ | ⟨-, hb⟩
        · exact .inr ⟨rfl, entry_ne_exit g⟩
        · exact .inr ⟨rfl, hb⟩
  intro b _ hround
  rcases hforward b b hround with ⟨hbody, hentry⟩ | ⟨hexit, hne⟩
  · exact h.ne_entry (hbody.symm.trans hentry)
  · exact hne hexit

theorem ncard_reaches_le : {b | g.Reaches .forward b}.ncard ≤ 3 := by
  have hg := h.built.wellFormed
  rw [hg.ncard_reaches]
  have hsubset : g.finishedOf .forward ⊆ [g.entry, body, g.regularExit] := by
    intro b hb
    simpa using h.reaches (hg.mem_finishedOf.mp hb)
  exact (List.subperm_of_subset (hg.nodup_finishedOf .forward) hsubset).length_le

end Graph.StraightLine

/-! ## One pass along the line -/

namespace Setup.OnePass

variable {V S : Type} [Store S] [DecidableEq S] [DecidableEq V] [LawfulJoin S] [PlainWidening S]
  {s : Setup V S} {start p q : Pass V S} {visits : List (BlockId × Pass V S)} {body : BlockId}
  {store : S} (hpass : s.OnePass store start visits p) (hline : s.graph.StraightLine body)
  (hs : s.Starts start)

include hpass hline hs

/-- The block is entered with the store that flow starts with. -/
theorem input_body (hforward : s.analysis.direction = .forward) (hempty : ∀ b, ¬ p.IsPending b) :
    p.input? body = some (.single store) := by
  have hfree : ∀ e ∈ s.graph.predecessors body,
      s.graph.NodeFree e.source ∧ ¬ p.IsPending e.source := by
    intro e he
    rw [hline.predecessors_body, List.mem_singleton] at he
    subst he
    exact ⟨hs.wellFormed.nodeFree_of_starts s.graph.entry_mem_starts, hempty _⟩
  rw [hpass.history.input?_eq_inflow hs hforward hline.ne_entry hfree, Pass.inflow,
    hline.predecessors_body]
  simp [hpass.entry, joinAll, joinOnto, Flow.along, Flow.regular]

omit [LawfulJoin S] [PlainWidening S] in
/-- Before the block is visited no value has been recorded. -/
theorem values_before (hq : (body, q) ∈ visits) (m : NodeId) : q.findings.values[m]? = none := by
  rw [← Option.not_isSome_iff_eq_none]
  intro hvalue
  obtain ⟨earlier, later, rfl⟩ := List.append_of_mem hq
  obtain ⟨b, hb, n, hn, -⟩ := hpass.history.before.visited_of_value hs hvalue
  have hmem : b ∈ (earlier ++ (body, q) :: later).map Prod.fst := by
    rw [List.map_append]
    exact List.mem_append_left _ hb
  have hne : b ≠ body := by
    rintro rfl
    have honce := hpass.once
    rw [List.map_append, List.map_cons, List.nodup_append] at honce
    exact honce.2.2 _ hb _ List.mem_cons_self rfl
  -- all other blocks on the line are without nodes
  have hfree : s.graph.NodeFree b := by
    rcases hline.reaches ((hpass.visited b).mp hmem) with rfl | rfl | rfl
    · exact hs.wellFormed.nodeFree_of_starts s.graph.entry_mem_starts
    · exact absurd rfl hne
    · exact hs.wellFormed.nodeFree_of_starts s.graph.regularExit_mem_starts
  simp [hfree.nodesOf] at hn

/-- The exit is entered with what the visit of the block ends with, as one store. -/
theorem input_exit (hforward : s.analysis.direction = .forward) (hq : (body, q) ∈ visits)
    {input : Flow S} (hinput : q.input? body = some input) :
    p.input? s.graph.regularExit = some (.single (s.walkOf body q input).last.flow.regular) := by
  obtain ⟨block, kind, hblock, hkind⟩ :=
    hs.wellFormed.kind_of_starts s.graph.regularExit_mem_starts
  have hsent : s.sentAlong q ⟨body, s.graph.regularExit, .unconditional⟩ =
      some (.single (s.walkOf body q input).last.flow.regular) := by
    simp [sentAlong, leaving, hinput, hblock, hkind, Outcome.sentForward]
  have honce : s.sentOnce visits ⟨body, s.graph.regularExit, .unconditional⟩ =
      some (.single (s.walkOf body q input).last.flow.regular) :=
    (sentOnce_eq_some_iff hpass.once).mpr ⟨q, hq, hsent⟩
  rw [hpass.history.input?_eq_joinAll hs hforward hpass.once
    (Graph.StraightLine.entry_ne_exit s.graph).symm, hline.predecessors_exit]
  simp [honce, joinAll, joinOnto]

end Setup.OnePass

namespace Constants

open Knowledge (evaluate)

/-- On a straight line constant propagation ends with what an evaluation knows. -/
theorem exists_reflects {settings : Settings} {g : Graph} {body : BlockId}
    (hline : g.StraightLine body) (htests : ∀ n ∈ g.nodesOf body, n.kind.isEquality = false)
    (hlimit : 3 ≤ settings.maxVisits) :
    ∃ p store values, analysis.solve settings g = .ok p ∧
      p.input? g.regularExit = some (.single store) ∧
      Reflects g.code.parameters (g.nodesOf body) store values ∧
      ∀ n ∈ g.nodesOf body, p.findings.values[n.id]? = values[n.id]? := by
  have hg := hline.built.wellFormed
  obtain ⟨s, start, visits, p, hprepare, hsolve, hpass⟩ :=
    analysis.solvedInOnePass rfl hg hline.acyclic (hline.ncard_reaches_le.trans hlimit)
  obtain ⟨-, -, -, -, hempty⟩ := Analysis.solve_eq_ok hg hsolve
  obtain ⟨hs, rfl, ha, -⟩ := Analysis.starts_of_prepare hg hprepare
  have hforward : s.analysis.direction = .forward := by rw [ha]; rfl
  have hinput := hpass.input_body hline hs hforward hempty
  -- the only visit of the block is its last one, and so covers what is recorded at the end
  obtain ⟨q, later, hlast, hcovered, -⟩ :=
    (Setup.covered_of_history hs hpass.history body _ hinput).resolve_left (hempty body)
  have hq : (body, q) ∈ visits := by
    obtain ⟨earlier, rfl⟩ := hlast.split
    simp
  obtain ⟨store, hflow, hreflects⟩ := reflects_through s.graph.code s.graph
    (hpass.values_before hline hs hq) (hg.nodesOf_nodup body) htests
  rw [← ha, ← Setup.walkOf_forward hforward] at hflow hreflects
  refine ⟨p, store, _, hsolve, ?_, hreflects, fun n hn => hcovered.values body (.inl rfl) n hn⟩
  rw [hpass.input_exit hline hs hforward hq hcovered.arrived, hflow]
  rfl

/-- On a straight line without equality tests constant propagation succeeds and is exact. The exit is
entered with one store, which binds the parameters and the locals assigned to what the evaluation of
the block knows of them. A node has a recorded value exactly if it is an integer literal, a read, an
assignment or arithmetic, and then the value is what the evaluation knows of it. -/
theorem exact_on_straight_lines (settings : Settings) (g : Graph) (body : BlockId)
    (hline : g.StraightLine body) (htests : ∀ n ∈ g.nodesOf body, n.kind.isEquality = false)
    (hlimit : 3 ≤ settings.maxVisits) :
    ∃ p store, analysis.solve settings g = .ok p ∧
      p.input? g.regularExit = some (.single store) ∧
      (∀ x c, store.get? x = some c ↔
        (x ∈ g.code.parameters ∨ ∃ n ∈ g.nodesOf body, n.Assigns x) ∧
          c = ofOption ((evaluate (g.nodesOf body)).locals x)) ∧
      ∀ n ∈ g.nodesOf body, ∀ c, p.findings.values[n.id]? = some c ↔
        gives n.kind = true ∧ c = ofOption ((evaluate (g.nodesOf body)).results n.id) := by
  obtain ⟨p, store, values, hsolve, hexit, hreflects, hvalues⟩ :=
    exists_reflects hline htests hlimit
  refine ⟨p, store, hsolve, hexit, ?_, ?_⟩
  · intro x c
    rw [← hreflects.bound, ← hreflects.locals, lookup]
    cases store.get? x <;> simp [eq_comm]
  · intro n hn c
    have hgives : (values[n.id]?).isSome ↔ gives n.kind = true := by
      rw [hreflects.valued]
      constructor
      · rintro ⟨k, hk, hid, hgives⟩
        rwa [← hline.built.wellFormed.node_unique hk hn hid]
      · exact fun hgives => ⟨n, hn, rfl, hgives⟩
    rw [hvalues n hn, ← hgives, ← hreflects.results]
    cases values[n.id]? <;> simp [eq_comm]

/-- The block reads `x` before it assigns it, sets `x` to the greatest integer and `p` to one more
than that, and sets `x` anew to the least integer, which has no negative. -/
def overflowingLine : Graph :=
  .ofSteps (.method "run" "Line" [⟨"p"⟩])
    [.addBlock .regular,
      .push ⟨0, 3⟩ (.localRead ⟨"x"⟩), .push ⟨0, 3⟩ (.literal (.integer 9223372036854775807)),
      .push ⟨0, 3⟩ (.assignment ⟨"x"⟩ ⟨0, 1⟩), .push ⟨0, 3⟩ (.literal (.integer 1)),
      .push ⟨0, 3⟩ (.arithmetic .add ⟨0, 1⟩ ⟨0, 3⟩), .push ⟨0, 3⟩ (.assignment ⟨"p"⟩ ⟨0, 4⟩),
      .push ⟨0, 3⟩ (.localRead ⟨"x"⟩), .push ⟨0, 3⟩ (.minus ⟨0, 6⟩),
      .push ⟨0, 3⟩ (.arithmetic .subtract ⟨0, 7⟩ ⟨0, 3⟩),
      .push ⟨0, 3⟩ (.assignment ⟨"x"⟩ ⟨0, 8⟩), .push ⟨0, 3⟩ (.minus ⟨0, 8⟩),
      .push ⟨0, 3⟩ (.literal .null),
      .addEdge ⟨0, 0⟩ ⟨0, 3⟩ .unconditional, .addEdge ⟨0, 3⟩ ⟨0, 1⟩ .unconditional]

theorem overflowingLine_straightLine : overflowingLine.StraightLine ⟨0, 3⟩ where
  built := Graph.built_ofSteps (by decide +kernel)
  regular := by decide +kernel
  edges := by decide +kernel

/-- The line is solved in three visits; the evaluation of its block ends with the least integer in
`x`, and with nothing known of `p` and of the negative of `x`. -/
theorem overflowingLine_exact :
    overflowingLine.StraightLine ⟨0, 3⟩ ∧
      (∀ n ∈ overflowingLine.nodesOf ⟨0, 3⟩, n.kind.isEquality = false) ∧
      (evaluate (overflowingLine.nodesOf ⟨0, 3⟩)).locals ⟨"x"⟩ = some Int64.minValue ∧
      (evaluate (overflowingLine.nodesOf ⟨0, 3⟩)).locals ⟨"p"⟩ = none ∧
      (evaluate (overflowingLine.nodesOf ⟨0, 3⟩)).results ⟨0, 10⟩ = none ∧
      ∃ p store,
        analysis.solve { Settings.default .debug with maxVisits := 3 } overflowingLine = .ok p ∧
        p.input? overflowingLine.regularExit = some (.single store) ∧
        (∀ x c, store.get? x = some c ↔
          (x ∈ overflowingLine.code.parameters ∨
            ∃ n ∈ overflowingLine.nodesOf ⟨0, 3⟩, n.Assigns x) ∧
            c = ofOption ((evaluate (overflowingLine.nodesOf ⟨0, 3⟩)).locals x)) ∧
        ∀ n ∈ overflowingLine.nodesOf ⟨0, 3⟩, ∀ c, p.findings.values[n.id]? = some c ↔
          gives n.kind = true ∧
            c = ofOption ((evaluate (overflowingLine.nodesOf ⟨0, 3⟩)).results n.id) := by
  have htests : ∀ n ∈ overflowingLine.nodesOf ⟨0, 3⟩, n.kind.isEquality = false := by
    decide +kernel
  exact ⟨overflowingLine_straightLine, htests, by decide +kernel, by decide +kernel,
    by decide +kernel,
    exact_on_straight_lines { Settings.default .debug with maxVisits := 3 } overflowingLine ⟨0, 3⟩
      overflowingLine_straightLine htests (by decide)⟩

end Constants

end FlowFixpoint
