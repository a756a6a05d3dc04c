/-
# FlowFixpoint.Proofs.OnePass — acyclic graphs are solved in one pass.

Forward, pending blocks are taken in the finishing order, and where flow goes round nowhere that
order is topological. So the visits of a run go through the order from its beginning: the next block
has received something from a block before it and is pending, and every block that is pending stands
behind those visited. `InOrder` is that invariant. At the end of the order nothing is pending; each
block that flow reaches has been visited once, and its input is the join of what was sent to it.
-/
import FlowFixpoint.Proofs.Arrivals
import FlowFixpoint.Proofs.ConstantSoundness
import FlowFixpoint.Proofs.DepthFirstOrder

namespace FlowFixpoint

variable {V S : Type} [Store S] [DecidableEq S] [DecidableEq V]

namespace Setup

/-! ## In the finishing order -/

/-- The visits so far have gone through the finishing order from its beginning, and the blocks that
are pending stand behind those visited. -/
structure InOrder (s : Setup V S) (start : Pass V S) (visits : List (BlockId × Pass V S))
    (p : Pass V S) : Prop where
  history : s.History start visits p
  visited : visits.map Prod.fst = (s.graph.finishedOf .forward).take visits.length
  ahead : ∀ c, p.IsPending c → visits.length ≤ (s.graph.finishedOf .forward).idxOf c

variable {s : Setup V S} {start p p' : Pass V S} {visits : List (BlockId × Pass V S)} {b c : BlockId}

/-- A visit sends something along every edge out of its block. -/
theorem History.exists_sentAlong (hs : s.Starts start) (h : s.History start visits p) {e : Edge}
    (he : e ∈ s.graph.edges) (hvisited : e.source ∈ visits.map Prod.fst) :
    ∃ q φ, (e.source, q) ∈ visits ∧ s.sentAlong q e = some φ := by
  obtain ⟨⟨source, q⟩, hq, hfst⟩ := List.mem_map.mp hvisited
  obtain rfl : source = e.source := hfst
  obtain ⟨input, hinput⟩ := h.input_of_mem hs hq
  obtain ⟨block, hblock⟩ := hs.wellFormed.exists_block_head .forward he
  have htarget : s.graph.block? e.target = some block := hblock
  refine ⟨q, (s.walkOf e.source q input).last.sentForward e.label block.kind, hq, ?_⟩
  simp [sentAlong, leaving, hinput, htarget]

/-- Where merges are joins, a block with an input that has not been visited is pending. -/
theorem History.isPending_of_not_visited [LawfulJoin S] (hs : s.Starts start)
    (h : s.History start visits p) (hinput : (p.input? b).isSome)
    (hb : b ∉ visits.map Prod.fst) : p.IsPending b := by
  obtain ⟨input, hinput⟩ := Option.isSome_iff_exists.mp hinput
  refine (covered_of_history hs h b input hinput).resolve_right ?_
  rintro ⟨q, later, hlast, -⟩
  obtain ⟨earlier, rfl⟩ := hlast.split
  simp at hb

theorem InOrder.mem_visited_iff (h : s.InOrder start visits p)
    (hb : b ∈ s.graph.finishedOf .forward) :
    b ∈ visits.map Prod.fst ↔ (s.graph.finishedOf .forward).idxOf b < visits.length := by
  rw [h.visited, List.mem_take_iff_idxOf_lt hb]

section Forward

variable (hs : s.Starts start) (hforward : s.analysis.direction = .forward)

include hs

/-- The rank of a block that flow reaches is its place in the finishing order. -/
theorem History.rank_eq (horder : s.graph.blockOrder .forward = .ok start.pending.order)
    (h : s.History start visits p) (hb : b ∈ s.graph.finishedOf .forward) :
    p.pending.rank b = (s.graph.finishedOf .forward).idxOf b := by
  rw [hs.wellFormed.blockOrder_forward, Except.ok.injEq] at horder
  rw [Worklist.rank, h.order hs, ← horder, List.idxOf_append_of_mem hb]

include hforward

theorem mem_finishedOf_of_isPending (h : s.Reached start p) (hb : p.IsPending b) :
    b ∈ s.graph.finishedOf .forward :=
  hs.wellFormed.mem_finishedOf.mpr
    (hforward ▸ hs.reaches_of_input h ((hs.orderly_of_reached h).input_of_pending b hb))

/-- After a visit of the next block, the blocks that are pending stand behind it. -/
theorem InOrder.concat (hacyclic : s.graph.Acyclic .forward) (h : s.InOrder start visits p)
    (hstep : s.Step b p p') (hb : b ∈ s.graph.finishedOf .forward)
    (hnext : (s.graph.finishedOf .forward).idxOf b = visits.length) :
    s.InOrder start (visits ++ [(b, p)]) p' := by
  have hg := hs.wellFormed
  obtain ⟨input, hframe⟩ := hstep.stepped hg (hs.orderly_of_reached h.history.reached)
  -- a block reached from the visited one comes after it in the order
  have hahead : ∀ c ∈ s.reachedFrom b,
      visits.length < (s.graph.finishedOf .forward).idxOf c := by
    intro c hc
    obtain ⟨e, he, htail, rfl⟩ := exists_edge_of_reachedFrom hg hc
    rw [hforward] at htail ⊢
    subst htail
    rw [← hnext]
    exact hg.acyclic_iff.mp hacyclic e he hb
  refine ⟨h.history.concat hstep, ?_, ?_⟩
  · rw [List.map_append, h.visited, List.length_append, List.length_singleton, List.take_add_one,
      ← hnext, List.getElem?_idxOf hb]
    rfl
  · intro c hc
    rw [List.length_append, List.length_singleton]
    rcases (hframe.isPending c).mp hc with ⟨hcb, hold⟩ | hchanged | ⟨-, hreached, -⟩
    · have hmem := mem_finishedOf_of_isPending hs hforward h.history.reached hold
      have hne : (s.graph.finishedOf .forward).idxOf c ≠ visits.length := by
        rw [← hnext]
        exact fun heq => hcb ((List.idxOf_inj hmem).mp heq)
      have hle := h.ahead c hold
      omega
    · refine hahead c ?_
      by_contra hc
      rw [hframe.elsewhere c hc] at hchanged
      exact Nat.lt_irrefl _ hchanged
    · exact hahead c hreached

variable [LawfulJoin S] [PlainWidening S]

/-- A block that flow reaches has an input once those before it have been visited. -/
theorem History.isSome_input (h : s.History start visits p) (hb : s.graph.Reaches .forward b)
    (hbefore : ∀ e ∈ s.graph.edges, e.target = b → s.graph.Reaches .forward e.source →
      e.source ∈ visits.map Prod.fst) : (p.input? b).isSome := by
  rw [h.input?_eq hforward hs, isSome_foldl_joinOnto]
  rcases hb.cases with hstart | ⟨e, he, hsource, htarget⟩
  · rw [← hforward] at hstart
    exact .inl (hs.started.isSome_input.mpr hstart)
  · obtain ⟨q, φ, hq, hφ⟩ := h.exists_sentAlong hs he (hbefore e he htarget hsource)
    have hmem : φ ∈ s.arrivals visits b :=
      (mem_arrivals hs.wellFormed).mpr ⟨_, hq, e, he, rfl, htarget, hφ⟩
    exact .inr (List.ne_nil_of_mem hmem)

variable (hacyclic : s.graph.Acyclic .forward)

include hacyclic

/-- The next block of the order is pending: all blocks that flow into it have been visited. -/
theorem InOrder.isPending_next (h : s.InOrder start visits p)
    (hb : b ∈ s.graph.finishedOf .forward)
    (hnext : (s.graph.finishedOf .forward).idxOf b = visits.length) : p.IsPending b := by
  have hg := hs.wellFormed
  refine h.history.isPending_of_not_visited hs ?_ ?_
  · refine h.history.isSome_input hs hforward (hg.mem_finishedOf.mp hb) ?_
    rintro e he rfl hsource
    have hmem := hg.mem_finishedOf.mpr hsource
    have hrises : (s.graph.finishedOf .forward).idxOf e.source <
        (s.graph.finishedOf .forward).idxOf e.target := hg.acyclic_iff.mp hacyclic e he hmem
    rw [h.mem_visited_iff hmem]
    omega
  · rw [h.mem_visited_iff hb]
    omega

/-- The next block of the order is the next to be visited. -/
theorem InOrder.exists_next (horder : s.graph.blockOrder .forward = .ok start.pending.order)
    (h : s.InOrder start visits p)
    (hlt : visits.length < (s.graph.finishedOf .forward).length) :
    ∃ b p', s.InOrder start (visits ++ [(b, p)]) p' := by
  have hnodup := hs.wellFormed.nodup_finishedOf .forward
  have horderly := hs.orderly_of_reached h.history.reached
  have hidx := hnodup.idxOf_getElem _ hlt
  have hmem := List.getElem_mem hlt
  have hb := h.isPending_next hs hforward hacyclic hmem hidx
  cases hpop : p.pending.pop? with
  | none => exact absurd hb (horderly.sound.pop?_eq_none_iff.mp hpop _)
  | some next =>
    obtain ⟨c, pending⟩ := next
    obtain ⟨p', hvisit⟩ := hs.exists_visit h.history.reached (fun _ => .inl (.inr inferInstance)) hpop
    have hstep : s.Step c p p' := ⟨pending, hpop, hvisit⟩
    have hc := (horderly.sound.pop?_eq_some hpop).1
    have hmem' := mem_finishedOf_of_isPending hs hforward h.history.reached hc
    -- the block taken off the list has least rank, and none that is pending stands before ours
    have hle := hstep.rank_le horderly hb
    rw [h.history.rank_eq hs horder hmem', h.history.rank_eq hs horder hmem, hidx] at hle
    exact ⟨c, p', h.concat hs hforward hacyclic hstep hmem' (Nat.le_antisymm hle (h.ahead c hc))⟩

/-- So the visits go through the whole order. -/
theorem exists_inOrder (horder : s.graph.blockOrder .forward = .ok start.pending.order) (k : ℕ)
    (hk : k ≤ (s.graph.finishedOf .forward).length) :
    ∃ visits p, s.InOrder start visits p ∧ visits.length = k := by
  induction k with
  | zero => exact ⟨[], start, ⟨.nil, rfl, fun _ _ => Nat.zero_le _⟩, rfl⟩
  | succ k ih =>
    obtain ⟨visits, p, h, rfl⟩ := ih (by omega)
    obtain ⟨b, p', h'⟩ := h.exists_next hs hforward hacyclic horder hk
    exact ⟨_, p', h', by simp⟩

end Forward

/-! ## One pass -/

/-- What the first of some visits to the source of an edge has sent along the edge; nothing if the
source has not been visited. -/
def sentOnce (s : Setup V S) (visits : List (BlockId × Pass V S)) (e : Edge) : Option (Flow S) :=
  (visits.find? fun v => v.1 = e.source).bind fun v => s.sentAlong v.2 e

omit [DecidableEq S] in
theorem sentOnce_eq_some_iff (honce : (visits.map Prod.fst).Nodup) {e : Edge} {φ : Flow S} :
    s.sentOnce visits e = some φ ↔
      ∃ q, (e.source, q) ∈ visits ∧ s.sentAlong q e = some φ := by
  rw [sentOnce, Option.bind_eq_some_iff]
  constructor
  · rintro ⟨⟨source, q⟩, hfind, hsent⟩
    obtain rfl : source = e.source := by simpa using List.find?_some hfind
    exact ⟨q, List.mem_of_find?_eq_some hfind, hsent⟩
  · rintro ⟨q, hq, hsent⟩
    obtain ⟨v, hv⟩ := Option.isSome_iff_exists.mp
      (List.find?_isSome.mpr ⟨_, hq, by simp⟩ :
        (visits.find? fun v => v.1 = e.source).isSome = true)
    have hsame : v.1 = e.source := by simpa using List.find?_some hv
    obtain rfl := List.inj_on_of_nodup_map honce (List.mem_of_find?_eq_some hv) hq hsame
    exact ⟨_, hv, hsent⟩

/-- A run visits every block that flow reaches exactly once and no other. The entry keeps the store
that flow starts with, and the input of any other block is the join, over the edges into it from
blocks that flow reaches, of what the visit of the source has sent along the edge. -/
structure OnePass (s : Setup V S) (store : S) (start : Pass V S)
    (visits : List (BlockId × Pass V S)) (p : Pass V S) : Prop where
  history : s.History start visits p
  once : (visits.map Prod.fst).Nodup
  visited : ∀ b, b ∈ visits.map Prod.fst ↔ s.graph.Reaches .forward b
  count : p.visits = {b | s.graph.Reaches .forward b}.ncard
  entry : p.input? s.graph.entry = some (.single store)
  sends : ∀ e ∈ s.graph.edges, s.graph.Reaches .forward e.source → (s.sentOnce visits e).isSome
  inputs : ∀ b, s.graph.Reaches .forward b → b ≠ s.graph.entry →
    p.input? b = joinAll ((s.graph.predecessors b).filterMap (s.sentOnce visits))

/-- Where flow goes round nowhere, nothing comes back to the entry. -/
theorem History.arrivals_entry (hs : s.Starts start) (hforward : s.analysis.direction = .forward)
    (hacyclic : s.graph.Acyclic .forward) (h : s.History start visits p) :
    s.arrivals visits s.graph.entry = [] := by
  refine List.eq_nil_iff_forall_not_mem.mpr fun φ hφ => ?_
  obtain ⟨⟨b, q⟩, hv, e, he, hsource, htarget, -⟩ := (mem_arrivals hs.wellFormed).mp hφ
  obtain ⟨input, hinput⟩ := h.input_of_mem hs hv
  have hreached : s.graph.Reaches .forward b :=
    hforward ▸ hs.reaches_of_input (h.reached_of_mem hv)
      (Option.isSome_iff_exists.mpr ⟨input, hinput⟩)
  obtain ⟨r, hr, hpath⟩ := hreached
  obtain rfl : r = s.graph.entry := List.mem_singleton.mp hr
  exact hacyclic _ ⟨_, hr, .refl⟩ (.tail' hpath ⟨e, he, hsource, htarget⟩)

/-- Where no block has been visited twice, what has arrived at a block is what was sent once along
each edge into it. -/
theorem History.input?_eq_joinAll [LawfulJoin S] [PlainWidening S] (hs : s.Starts start)
    (hforward : s.analysis.direction = .forward) (h : s.History start visits p)
    (honce : (visits.map Prod.fst).Nodup) (hb : b ≠ s.graph.entry) :
    p.input? b = joinAll ((s.graph.predecessors b).filterMap (s.sentOnce visits)) := by
  rw [h.input?_of_ne_entry hforward hs hb]
  -- the visits went block by block and not edge by edge, which makes no difference to the join
  refine joinAll_congr fun φ => ?_
  simp only [mem_arrivals hs.wellFormed, List.mem_filterMap, hs.wellFormed.mem_predecessors,
    sentOnce_eq_some_iff honce]
  constructor
  · rintro ⟨⟨source, q⟩, hq, e, he, rfl, htarget, hsent⟩
    exact ⟨e, ⟨he, htarget⟩, q, hq, hsent⟩
  · rintro ⟨e, ⟨he, htarget⟩, q, hq, hsent⟩
    exact ⟨_, hq, e, he, rfl, htarget, hsent⟩

/-- Visits that have gone through the whole order have made one pass. -/
theorem InOrder.onePass [LawfulJoin S] [PlainWidening S] (hs : s.Starts start)
    {initial : CodeUnit → S} (hboundary : s.analysis.boundary = .forward initial)
    (hacyclic : s.graph.Acyclic .forward) (h : s.InOrder start visits p)
    (hall : visits.length = (s.graph.finishedOf .forward).length) :
    s.OnePass (initial s.graph.code) start visits p := by
  have hg := hs.wellFormed
  have hforward : s.analysis.direction = .forward := by simp [Analysis.direction, hboundary]
  have hvisited : visits.map Prod.fst = s.graph.finishedOf .forward := by
    rw [h.visited, hall, List.take_length]
  have honce : (visits.map Prod.fst).Nodup := hvisited ▸ hg.nodup_finishedOf .forward
  refine ⟨h.history, honce, ?_, ?_, ?_, ?_, ?_⟩
  · intro b
    rw [hvisited, hg.mem_finishedOf]
  · rw [h.history.visits_eq hs, hall, hg.ncard_reaches]
  · have hstart : start.input? s.graph.entry = some (.single (initial s.graph.code)) := by
      rw [hs.started.input]
      exact ⟨_, by simp [Analysis.seedsOf, hboundary], rfl⟩
    rw [h.history.input?_eq hforward hs, h.history.arrivals_entry hs hforward hacyclic, hstart]
    rfl
  · intro e he hsource
    rw [← hg.mem_finishedOf, ← hvisited] at hsource
    obtain ⟨q, φ, hq, hφ⟩ := h.history.exists_sentAlong hs he hsource
    exact Option.isSome_iff_exists.mpr ⟨φ, (sentOnce_eq_some_iff honce).mpr ⟨q, hq, hφ⟩⟩
  · exact fun b _ hb => h.history.input?_eq_joinAll hs hforward honce hb

end Setup

namespace Analysis

/-- The analysis succeeds after one pass that starts with this store. -/
def SolvedInOnePass (a : Analysis V S) (settings : Settings) (g : Graph) (store : S) : Prop :=
  ∃ s start visits p, a.prepare settings g = .ok (s, start) ∧ a.solve settings g = .ok p ∧
    s.OnePass store start visits p

/-- A forward analysis with plain joins solves an acyclic graph in one pass. -/
theorem solvedInOnePass [LawfulJoin S] [PlainWidening S] (a : Analysis V S)
    {initial : CodeUnit → S} (hboundary : a.boundary = .forward initial) {settings : Settings}
    {g : Graph} (hg : g.WellFormed) (hacyclic : g.Acyclic .forward)
    (hlimit : {b | g.Reaches .forward b}.ncard ≤ settings.maxVisits) :
    a.SolvedInOnePass settings g (initial g.code) := by
  have hforward : a.direction = .forward := by simp [direction, hboundary]
  obtain ⟨start, hprepare⟩ := a.exists_prepare hg
  obtain ⟨hs, -⟩ := starts_of_prepare hg (hprepare settings)
  have horder := order_of_prepare (hprepare settings)
  rw [hforward] at horder
  obtain ⟨visits, p, h, hall⟩ :=
    Setup.exists_inOrder hs hforward hacyclic horder _ (Nat.le_refl _)
  refine ⟨_, start, visits, p, hprepare settings, ?_, h.onePass hs hboundary hacyclic hall⟩
  -- behind the last block of the order nothing can be pending
  have hdone : p.pending.pop? = none := by
    rw [(hs.orderly_of_reached h.history.reached).sound.pop?_eq_none_iff]
    intro b hb
    have hmem := Setup.mem_finishedOf_of_isPending hs hforward h.history.reached hb
    have hlt := List.idxOf_lt_length_iff.mpr hmem
    have hle := h.ahead b hb
    omega
  rw [hg.ncard_reaches, ← hall] at hlimit
  obtain ⟨left, hleft⟩ := Nat.exists_eq_add_of_le hlimit
  rw [solve, hprepare settings]
  simp only
  rw [hleft, h.history.run_eq, Setup.run, hdone]

end Analysis

/-- On an acyclic graph the shipped forward analyses succeed after one pass, provided that they are
allowed as many visits as there are blocks that flow reaches from the entry. -/
theorem acyclic_graph_solved_in_one_pass (settings : Settings) (g : Graph) (hg : g.Built)
    (hacyclic : g.Acyclic .forward)
    (hlimit : {b | g.Reaches .forward b}.ncard ≤ settings.maxVisits) :
    Constants.analysis.SolvedInOnePass settings g (Constants.initial g.code) ∧
      Nullness.analysis.SolvedInOnePass settings g (Nullness.initial g.code) :=
  ⟨Constants.analysis.solvedInOnePass rfl hg.wellFormed hacyclic hlimit,
    Nullness.analysis.solvedInOnePass rfl hg.wellFormed hacyclic hlimit⟩

namespace Constants

theorem refiningDiamond_acyclic : refiningDiamond.Acyclic .forward :=
  refiningDiamond_built.wellFormed.acyclic_iff.mpr (by decide +kernel)

theorem refiningDiamond_ncard_reaches :
    {b | refiningDiamond.Reaches .forward b}.ncard = 7 := by
  rw [refiningDiamond_built.wellFormed.ncard_reaches]
  decide +kernel

/-- The refining diamond is solved in exactly as many visits as it has blocks in reach. -/
theorem refiningDiamond_solved_in_one_pass :
    refiningDiamond.Built ∧ refiningDiamond.Acyclic .forward ∧
      {b | refiningDiamond.Reaches .forward b}.ncard ≤ 7 ∧
      Constants.analysis.SolvedInOnePass { Settings.default .debug with maxVisits := 7 }
        refiningDiamond (Constants.initial refiningDiamond.code) ∧
      Nullness.analysis.SolvedInOnePass { Settings.default .debug with maxVisits := 7 }
        refiningDiamond (Nullness.initial refiningDiamond.code) :=
  ⟨refiningDiamond_built, refiningDiamond_acyclic, refiningDiamond_ncard_reaches.le,
    acyclic_graph_solved_in_one_pass { Settings.default .debug with maxVisits := 7 } refiningDiamond
      refiningDiamond_built refiningDiamond_acyclic refiningDiamond_ncard_reaches.le⟩

end Constants

end FlowFixpoint
