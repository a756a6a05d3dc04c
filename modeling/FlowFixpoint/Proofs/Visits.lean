/-
# FlowFixpoint.Proofs.Visits — what one visit does, and what a run is made of.

A visit walks the nodes of its block, delivers along its edges and may make the blocks reached next
pending again. `Step` is one visit of a run, `Reached` any number of them; `Step.spell` says
everything that a step can do, and `Orderly` is what every state of a run keeps: a sound worklist in
which only blocks with an input are pending, and slots that match the recorded inputs.
-/
import FlowFixpoint.Fixpoint.Run
import FlowFixpoint.Proofs.Crossings
import FlowFixpoint.Proofs.Delivery
import Mathlib.Logic.Relation

namespace FlowFixpoint

variable {V S : Type}

/-! ## Requeueing -/

namespace Pass

variable (p : Pass V S) (bs : List BlockId) (c : BlockId)

/-- Makes blocks pending if a value has changed. -/
def requeueIf (changed : Bool) : Pass V S := if changed then p.requeue bs else p

variable (changed : Bool)

@[simp]
theorem findings_requeueIf : (p.requeueIf bs changed).findings = p.findings := by
  cases changed <;> rfl

@[simp]
theorem input?_requeueIf : (p.requeueIf bs changed).input? c = p.input? c := by
  cases changed <;> rfl

@[simp]
theorem changes_requeueIf : (p.requeueIf bs changed).changes c = p.changes c := by
  cases changed <;> rfl

@[simp]
theorem slotsOf_requeueIf : (p.requeueIf bs changed).slotsOf c = p.slotsOf c := by
  cases changed <;> rfl

@[simp]
theorem visits_requeueIf : (p.requeueIf bs changed).visits = p.visits := by
  cases changed <;> rfl

@[simp]
theorem order_requeueIf : (p.requeueIf bs changed).pending.order = p.pending.order := by
  cases changed with
  | false => rfl
  | true => exact Worklist.order_foldl_push p.pending bs _

@[simp]
theorem isPending_requeueIf : (p.requeueIf bs changed).IsPending c ↔
    p.IsPending c ∨ changed = true ∧ c ∈ bs ∧ (p.input? c).isSome := by
  cases changed with
  | false => simp [requeueIf]
  | true =>
    change c ∈ (bs.foldl _ p.pending).queued ↔ _
    rw [Worklist.mem_foldl_push]
    simp [IsPending, input?]

theorem sound_requeueIf (h : p.pending.Sound) : (p.requeueIf bs changed).pending.Sound := by
  cases changed with
  | false => exact h
  | true => exact h.foldl_push bs _

end Pass

/-! ## Visits -/

namespace Setup

/-- The blocks that flow reaches next from a block. -/
def reachedFrom (s : Setup V S) (b : BlockId) : List BlockId :=
  (s.graph.routesOf s.analysis.direction b).map Route.reached

variable [DecidableEq V]

/-- The walk that visits a block. -/
def walkOf (s : Setup V S) (b : BlockId) (p : Pass V S) (input : Flow S) : Walk V S :=
  Walk.through s.graph s.analysis p.findings input (s.graph.passedNodes s.analysis.direction b)

/-- The crossing that visits a block of a kind. -/
def crossingOf [Join S] (s : Setup V S) (b : BlockId) (kind : BlockKind) (p : Pass V S)
    (input : Flow S) : Crossing V S :=
  Crossing.through s.graph s.analysis kind p.findings input
    (s.graph.passedNodes s.analysis.direction b)

@[simp]
theorem toWalk_crossingOf [Join S] (s : Setup V S) (b : BlockId) (kind : BlockKind) (p : Pass V S)
    (input : Flow S) : (s.crossingOf b kind p input).toWalk = s.walkOf b p input :=
  Crossing.toWalk_through ..

/-- The state in which a visit has walked its block and is about to deliver. -/
def walked (s : Setup V S) (b : BlockId) (p : Pass V S) (input : Flow S) (pending : Worklist) :
    Pass V S :=
  { p with findings := (s.walkOf b p input).findings, pending, visits := p.visits + 1 }

section Walked

variable (s : Setup V S) (b c : BlockId) (p : Pass V S) (input : Flow S) (pending : Worklist)

@[simp]
theorem input?_walked : (s.walked b p input pending).input? c = p.input? c := by
  simp [walked, Pass.input?, walkOf]

@[simp]
theorem changes_walked : (s.walked b p input pending).changes c = p.changes c := rfl

@[simp]
theorem slotsOf_walked : (s.walked b p input pending).slotsOf c = p.slotsOf c := rfl

variable {s b c}

/-- Walking a block touches neither inputs nor slots. -/
theorem SlotsMatch.walked {p : Pass V S} (h : s.SlotsMatch p) (b : BlockId) (input : Flow S)
    (pending : Worklist) : s.SlotsMatch (s.walked b p input pending) := by
  intro c hc
  simpa [Pass.Matched] using h c hc

/-- A walk through a block leaves the values of other blocks as they are. -/
theorem walkOf_values_of_ne (hg : s.graph.WellFormed) {n : Node}
    (hn : n ∈ s.graph.nodesOf c) (hcb : c ≠ b) :
    (s.walkOf b p input).findings.values[n.id]? = p.findings.values[n.id]? := by
  refine Walk.through_values_of_not_mem _ _ _ _ ?_
  intro m hm hid
  exact hcb (hg.block_unique hn (Graph.mem_passedNodes.mp hm) hid.symm)

/-- A walk through a block notes no change exactly when it leaves the table of values as it is. -/
theorem changed_walkOf (hg : s.graph.WellFormed) {p : Pass V S} {input : Flow S} :
    (s.walkOf b p input).changed = false ↔
      (s.walkOf b p input).findings.values = p.findings.values :=
  Walk.through_changed _ _ _ _ (hg.passedNodes_nodup _ b)

end Walked

variable [Store S]

omit [DecidableEq V] in
/-- What leaves a block, and where it goes. -/
def parcelsOf (s : Setup V S) (b : BlockId) (last : Outcome V S) : List (BlockId × Parcel S) :=
  (s.graph.routesOf s.analysis.direction b).map fun r =>
    (r.reached, last.sent s.analysis.direction r.label r.kind)

variable {s : Setup V S} {p p' : Pass V S} {b c : BlockId}

omit [DecidableEq V] [Store S] in
theorem mem_reachedFrom : c ∈ s.reachedFrom b ↔
    ∃ r ∈ s.graph.routesOf s.analysis.direction b, r.reached = c := by
  simp [reachedFrom]

omit [DecidableEq V] [Store S] in
theorem exists_edge_of_reachedFrom (hg : s.graph.WellFormed) (h : c ∈ s.reachedFrom b) :
    ∃ e ∈ s.graph.edges, s.analysis.direction.tail e = b ∧ s.analysis.direction.head e = c := by
  obtain ⟨r, hr, rfl⟩ := mem_reachedFrom.mp h
  obtain ⟨e, he, htail, _, -, rfl⟩ := hg.mem_routesOf.mp hr
  exact ⟨e, he, htail, rfl⟩

omit [DecidableEq V] in
theorem mem_parcelsOf (hg : s.graph.WellFormed) {last : Outcome V S} {e : BlockId × Parcel S} :
    e ∈ s.parcelsOf b last ↔ ∃ edge ∈ s.graph.edges, s.analysis.direction.tail edge = b ∧
      ∃ block, s.graph.block? (s.analysis.direction.head edge) = some block ∧
        e = (s.analysis.direction.head edge,
          last.sent s.analysis.direction edge.label block.kind) := by
  simp only [parcelsOf, List.mem_map, hg.mem_routesOf]
  constructor
  · rintro ⟨r, ⟨edge, hedge, htail, block, hblock, rfl⟩, rfl⟩
    exact ⟨edge, hedge, htail, block, hblock, rfl⟩
  · rintro ⟨edge, hedge, htail, block, hblock, rfl⟩
    exact ⟨_, ⟨edge, hedge, htail, block, hblock, rfl⟩, rfl⟩

omit [DecidableEq V] in
theorem isSlot_sentBackward (last : Outcome V S) {label : EdgeLabel} {kind : BlockKind}
    (hlabel : kind = .conditional → label = .onTrue ∨ label = .onFalse) :
    (last.sentBackward label kind).isSlot = decide (kind = .conditional) := by
  by_cases hkind : kind = .conditional
  · subst hkind
    rcases hlabel rfl with rfl | rfl <;> rfl
  · cases kind <;> cases label <;> simp_all [Outcome.sentBackward, Parcel.isSlot]

omit [DecidableEq V] in
/-- Edges out of a conditional block carry an outcome, so that what flows back along them goes into
a slot; nothing else does. -/
theorem addressed_parcelsOf (hg : s.graph.WellFormed) (b : BlockId) (last : Outcome V S) :
    s.Addressed (s.parcelsOf b last) := by
  intro e he
  obtain ⟨edge, hedge, -, block, hblock, rfl⟩ := (mem_parcelsOf hg).mp he
  simp only [slotted, hblock, Option.map_some, Option.some.injEq]
  cases hd : s.analysis.direction with
  | forward => rfl
  | backward =>
    rw [hd] at hblock
    simp only [Outcome.sent, decide_true, Bool.true_and]
    exact isSlot_sentBackward last fun hkind => hg.label_of_conditional hblock hkind hedge rfl

/-- What crossing a block sends along an edge is what is read off its last node. -/
theorem sent_crossingOf (hg : s.graph.WellFormed) {block : Block}
    (hblock : s.graph.block? b = some block) (p : Pass V S) (input : Flow S) {e : Edge}
    (he : e ∈ s.graph.edges) (htail : s.analysis.direction.tail e = b) (kind : BlockKind) :
    (s.crossingOf b block.kind p input).sent s.analysis.direction e.label kind =
      (s.walkOf b p input).last.sent s.analysis.direction e.label kind :=
  hg.sent_through s.analysis p.findings input hblock he htail kind

variable [DecidableEq S]

/-- A visit is a walk, its deliveries, and a requeue if the walk has changed a value. -/
theorem visit_eq (hg : s.graph.WellFormed) {input : Flow S} {block : Block}
    (hblock : s.graph.block? b = some block) (hinput : p.input? b = some input) :
    s.visit b p =
      (s.deliverAll (s.parcelsOf b (s.walkOf b p input).last)
        { p with findings := (s.walkOf b p input).findings }).map fun q =>
          q.requeueIf (s.reachedFrom b) (s.walkOf b p input).changed := by
  have hin : p.findings.inputs[b]? = some input := hinput
  have hparcels : ((s.graph.routesOf s.analysis.direction b).map fun r =>
      (r.reached, (s.crossingOf b block.kind p input).sent s.analysis.direction r.label r.kind)) =
        s.parcelsOf b (s.walkOf b p input).last := by
    refine List.map_congr_left ?_
    intro r hr
    obtain ⟨e, he, htail, _, -, rfl⟩ := hg.mem_routesOf.mp hr
    exact congrArg _ (sent_crossingOf hg hblock p input he htail _)
  have hcrossing : Crossing.through s.graph s.analysis block.kind p.findings input
      (s.graph.passedNodes s.analysis.direction b) = s.crossingOf b block.kind p input := rfl
  simp only [visit, Graph.blockAt, hblock, hin, hg.routes_eq _ hblock, hg.passedBy_eq _ hblock,
    hcrossing, hparcels, toWalk_crossingOf]
  cases s.deliverAll (s.parcelsOf b (s.walkOf b p input).last)
    { p with findings := (s.walkOf b p input).findings } <;> rfl

/-- What a visit that succeeds has done. -/
theorem visit_eq_ok (hg : s.graph.WellFormed) {input : Flow S} (hinput : p.input? b = some input)
    (h : s.visit b p = .ok p') :
    ∃ q, s.deliverAll (s.parcelsOf b (s.walkOf b p input).last)
        { p with findings := (s.walkOf b p input).findings } = .ok q ∧
      p' = q.requeueIf (s.reachedFrom b) (s.walkOf b p input).changed := by
  cases hblock : s.graph.block? b with
  | none => simp [visit, Graph.blockAt, hblock] at h
  | some block =>
    rw [visit_eq hg hblock hinput] at h
    cases hq : s.deliverAll (s.parcelsOf b (s.walkOf b p input).last)
        { p with findings := (s.walkOf b p input).findings } with
    | error failure =>
      rw [hq] at h
      cases h
    | ok q =>
      rw [hq] at h
      exact ⟨q, rfl, (Except.ok.inj h).symm⟩

/-- A visit that fails has met an identifier of another graph or a delivery that fails. -/
theorem visit_eq_error {failure : Failure V S} (h : s.visit b p = .error failure) :
    (∃ id, failure = { fault := .stray id, pass := p }) ∨
      ∃ parcels q, s.deliverAll parcels q = .error failure := by
  unfold visit at h
  split at h
  · exact .inl ⟨_, (Except.error.inj h).symm⟩
  · split at h
    · cases h
    · simp only at h
      split at h
      · split at h
        · next hfailure =>
          cases h
          exact .inr ⟨_, _, hfailure⟩
        · cases h
      all_goals exact .inl ⟨_, (Except.error.inj h).symm⟩

/-! ## Steps of a run -/

/-- One visit of a run, to the block that is next. -/
def Step (s : Setup V S) (b : BlockId) (p p' : Pass V S) : Prop :=
  ∃ pending, p.pending.pop? = some (b, pending) ∧
    s.visit b { p with pending, visits := p.visits + 1 } = .ok p'

/-- Any number of visits. -/
def Reached (s : Setup V S) : Pass V S → Pass V S → Prop :=
  Relation.ReflTransGen fun p p' => ∃ b, s.Step b p p'

/-- What every state of a run keeps. -/
structure Orderly (s : Setup V S) (p : Pass V S) : Prop where
  sound : p.pending.Sound
  input_of_pending : ∀ b, p.IsPending b → (p.input? b).isSome
  slots : s.SlotsMatch p

/-- Everything that a step does: it takes a pending block, walks it from its input, delivers what
left it, and makes the blocks reached next pending if a value has changed. -/
theorem Step.spell (hg : s.graph.WellFormed) (ho : s.Orderly p) (h : s.Step b p p') :
    ∃ input pending q, p.IsPending b ∧ p.input? b = some input ∧ pending.Sound ∧
      (∀ c, c ∈ pending.queued ↔ c ≠ b ∧ p.IsPending c) ∧
      s.deliverAll (s.parcelsOf b (s.walkOf b p input).last) (s.walked b p input pending) = .ok q ∧
      p' = q.requeueIf (s.reachedFrom b) (s.walkOf b p input).changed := by
  obtain ⟨pending, hpop, hvisit⟩ := h
  obtain ⟨hb, hsound, hqueued⟩ := ho.sound.pop?_eq_some hpop
  obtain ⟨input, hinput⟩ := Option.isSome_iff_exists.mp (ho.input_of_pending b hb)
  have hinput' : ({ p with pending, visits := p.visits + 1 } : Pass V S).input? b = some input :=
    hinput
  obtain ⟨q, hq, hp'⟩ := visit_eq_ok hg hinput' hvisit
  exact ⟨input, pending, q, hb, hinput, hsound, hqueued, hq, hp'⟩

/-- What one step leaves of the state before it. -/
structure Stepped (s : Setup V S) (b : BlockId) (p p' : Pass V S) (input : Flow S) : Prop where
  pending : p.IsPending b
  arrived : p.input? b = some input
  values : p'.findings.values = (s.walkOf b p input).findings.values
  trees : p'.findings.trees = (s.walkOf b p input).findings.trees
  changes_le : ∀ c, p.changes c ≤ p'.changes c
  elsewhere : ∀ c, c ∉ s.reachedFrom b → p'.changes c = p.changes c
  quiet : ∀ c, p'.changes c = p.changes c → p'.input? c = p.input? c
  loud : ∀ c, p.changes c < p'.changes c → (p'.input? c).isSome
  /-- What is pending afterwards: what was and is not visited, every block with a changed input, and
  after a changed value the blocks reached next. -/
  isPending : ∀ c, p'.IsPending c ↔ c ≠ b ∧ p.IsPending c ∨ p.changes c < p'.changes c ∨
    (s.walkOf b p input).changed = true ∧ c ∈ s.reachedFrom b ∧ (p'.input? c).isSome

theorem Step.stepped (hg : s.graph.WellFormed) (ho : s.Orderly p) (h : s.Step b p p') :
    ∃ input, s.Stepped b p p' input := by
  obtain ⟨input, pending, q, hb, hinput, -, hqueued, hq, rfl⟩ := h.spell hg ho
  have hdelivered := delivered_of_deliverAll hq
  refine ⟨input, hb, hinput, ?_, ?_, ?_, ?_, ?_, ?_, ?_⟩
  · rw [Pass.findings_requeueIf, hdelivered.values]
    rfl
  · rw [Pass.findings_requeueIf, hdelivered.findings]
    rfl
  · intro c
    simpa using hdelivered.changes_le c
  · intro c hc
    rw [Pass.changes_requeueIf, ← changes_walked s b c p input pending]
    refine changes_of_deliverAll hq ?_
    intro e he hec
    obtain ⟨r, hr, rfl⟩ := List.mem_map.mp he
    exact hc (mem_reachedFrom.mpr ⟨r, hr, hec⟩)
  · intro c hc
    rw [Pass.changes_requeueIf] at hc
    simpa using (hdelivered.quiet c hc).1
  · intro c hc
    rw [Pass.changes_requeueIf] at hc
    simpa using (hdelivered.loud c hc).2
  · intro c
    simp only [Pass.isPending_requeueIf, Pass.changes_requeueIf, Pass.input?_requeueIf, ← or_assoc]
    refine or_congr_left ?_
    rw [← hqueued c]
    -- a delivery puts a block on the list exactly when it counts a change there
    rcases Nat.eq_or_lt_of_le (hdelivered.changes_le c) with heq | hlt
    · have hsame : q.changes c = p.changes c := heq.symm
      rw [(hdelivered.quiet c heq.symm).2, hsame]
      simp [Pass.IsPending, walked]
    · have hmore : p.changes c < q.changes c := hlt
      simp [(hdelivered.loud c hlt).1, hmore]

/-- A step counts one visit. -/
theorem Step.visits (hg : s.graph.WellFormed) (ho : s.Orderly p) (h : s.Step b p p') :
    p'.visits = p.visits + 1 := by
  obtain ⟨input, pending, q, -, -, -, -, hq, rfl⟩ := h.spell hg ho
  rw [Pass.visits_requeueIf, (delivered_of_deliverAll hq).visits]
  rfl

/-- A step keeps the order in which blocks are taken. -/
theorem Step.order (hg : s.graph.WellFormed) (ho : s.Orderly p) (h : s.Step b p p') :
    p'.pending.order = p.pending.order := by
  obtain ⟨pending, hpop, hvisit⟩ := h
  obtain ⟨input, hinput⟩ :=
    Option.isSome_iff_exists.mp (ho.input_of_pending b (ho.sound.pop?_eq_some hpop).1)
  have hinput' : ({ p with pending, visits := p.visits + 1 } : Pass V S).input? b = some input :=
    hinput
  obtain ⟨q, hq, rfl⟩ := visit_eq_ok hg hinput' hvisit
  rw [Pass.order_requeueIf, (delivered_of_deliverAll hq).order]
  exact Worklist.order_pop? hpop

/-- A step visits a pending block of least rank. -/
theorem Step.rank_le (ho : s.Orderly p) (h : s.Step b p p') (hc : p.IsPending c) :
    p.pending.rank b ≤ p.pending.rank c := by
  obtain ⟨pending, hpop, -⟩ := h
  exact ho.sound.rank_le_of_pop? hpop hc

/-- Orderliness is kept. -/
theorem Orderly.step (hg : s.graph.WellFormed) (ho : s.Orderly p) (h : s.Step b p p') :
    s.Orderly p' := by
  obtain ⟨input, hstep⟩ := h.stepped hg ho
  obtain ⟨input', pending, q, -, -, hsound, -, hq, rfl⟩ := h.spell hg ho
  refine ⟨?_, ?_, ?_⟩
  · exact q.sound_requeueIf _ _ ((delivered_of_deliverAll hq).sound hsound)
  · intro c hc
    rcases (hstep.isPending c).mp hc with ⟨-, hold⟩ | hlt | ⟨-, -, hsome⟩
    · rcases Nat.eq_or_lt_of_le (hstep.changes_le c) with heq | hlt
      · rw [hstep.quiet c heq.symm]
        exact ho.input_of_pending c hold
      · exact hstep.loud c hlt
    · exact hstep.loud c hlt
    · exact hsome
  · intro c hc
    have hmatched := (ho.slots.walked b input' pending).deliverAll (addressed_parcelsOf hg b _) hq c hc
    simpa [Pass.Matched] using hmatched

theorem Orderly.reached (hg : s.graph.WellFormed) (ho : s.Orderly p) (h : s.Reached p p') :
    s.Orderly p' := by
  induction h with
  | refl => exact ho
  | tail _ hstep ih =>
    obtain ⟨b, hstep⟩ := hstep
    exact ih.step hg hstep

/-- A run with visits left makes the next one and goes on. -/
theorem run_succ {pending : Worklist} (hpop : p.pending.pop? = some (b, pending)) (left : Nat) :
    s.run (left + 1) p =
      (s.visit b { p with pending, visits := p.visits + 1 }).bind fun p' => s.run left p' := by
  rw [run]
  simp only [hpop]
  cases s.visit b { p with pending, visits := p.visits + 1 } <;> rfl

/-- A run that succeeds has made some visits and left nothing pending. -/
theorem reached_of_run {left : Nat} (h : s.run left p = .ok p') :
    s.Reached p p' ∧ p'.pending.pop? = none := by
  induction left generalizing p with
  | zero =>
    unfold run at h
    split at h
    · next hnone =>
      cases h
      exact ⟨.refl, hnone⟩
    · cases h
  | succ left ih =>
    unfold run at h
    split at h
    · next hnone =>
      cases h
      exact ⟨.refl, hnone⟩
    · next b pending hpop =>
      simp only at h
      split at h
      · cases h
      · next q hq =>
        obtain ⟨hreached, hnone⟩ := ih h
        exact ⟨.head ⟨b, pending, hpop, hq⟩ hreached, hnone⟩

/-! ## Steps and absorption -/

variable [LawfulJoin S]

/-- After a step its parcels are absorbed. -/
theorem Step.absorbed (hg : s.graph.WellFormed) (ho : s.Orderly p) (h : s.Step b p p')
    {input : Flow S} (hinput : p.input? b = some input) {e : BlockId × Parcel S}
    (he : e ∈ s.parcelsOf b (s.walkOf b p input).last) (hj : s.JoinsAt e.1) :
    p'.Absorbed e.1 e.2 := by
  obtain ⟨input', pending, q, -, hinput', -, -, hq, rfl⟩ := h.spell hg ho
  obtain rfl : input = input' := by simpa [hinput] using hinput'
  have habsorbed := absorbed_deliverAll (addressed_parcelsOf hg b _) hq he hj
  exact (Pass.absorbed_congr (by simp) (by simp)).mpr habsorbed

/-- A step keeps absorbed what was. -/
theorem Step.keeps_absorbed (hg : s.graph.WellFormed) (ho : s.Orderly p) (h : s.Step b p p')
    {parcel : Parcel S} (hj : s.JoinsAt c) (hkind : parcel.isSlot = s.slotted c)
    (ha : p.Absorbed c parcel) : p'.Absorbed c parcel := by
  obtain ⟨input, pending, q, -, -, -, -, hq, rfl⟩ := h.spell hg ho
  have hwalked : (s.walked b p input pending).Absorbed c parcel :=
    (Pass.absorbed_congr (by simp) (by simp)).mpr ha
  have habsorbed := Absorbed.deliverAll hj hkind (addressed_parcelsOf hg b _) hwalked hq
  exact (Pass.absorbed_congr (by simp) (by simp)).mpr habsorbed

/-- A step that brings a block only what it has absorbed does not change it. -/
theorem Step.quiet_of_absorbed (hg : s.graph.WellFormed) (ho : s.Orderly p) (h : s.Step b p p')
    {input : Flow S} (hinput : p.input? b = some input) (hj : s.JoinsAt c)
    (ha : ∀ e ∈ s.parcelsOf b (s.walkOf b p input).last, e.1 = c → p.Absorbed c e.2) :
    p'.changes c = p.changes c := by
  obtain ⟨input', pending, q, -, hinput', -, -, hq, rfl⟩ := h.spell hg ho
  obtain rfl : input = input' := by simpa [hinput] using hinput'
  rw [Pass.changes_requeueIf, ← changes_walked s b c p input pending]
  refine quiet_deliverAll hj (ho.slots.walked b input pending) (addressed_parcelsOf hg b _) ?_ hq
  intro e he hec
  exact (Pass.absorbed_congr (by simp) (by simp)).mpr (ha e he hec)

end Setup

/-! ## Where a run starts -/

namespace Pass

/-- Records the inputs of several start blocks. -/
def seedAll (p : Pass V S) (seeds : List (BlockId × S)) : Pass V S :=
  seeds.foldl (fun p e => p.seed e.1 e.2) p

variable {seeds : List (BlockId × S)}

theorem input?_seedAll (hnodup : (seeds.map Prod.fst).Nodup) (p : Pass V S) (b : BlockId)
    (φ : Flow S) : (p.seedAll seeds).input? b = some φ ↔
      (∃ store, (b, store) ∈ seeds ∧ φ = .single store) ∨
        b ∉ seeds.map Prod.fst ∧ p.input? b = some φ := by
  induction seeds generalizing p with
  | nil => simp [seedAll]
  | cons e seeds ih =>
    obtain ⟨c, store⟩ := e
    rw [List.map_cons, List.nodup_cons] at hnodup
    have hseed : (p.seed c store).input? b = if c = b then some (.single store) else p.input? b := by
      simp [seed, input?, Std.ExtTreeMap.getElem?_insert]
    change ((p.seed c store).seedAll seeds).input? b = some φ ↔ _
    rw [ih hnodup.2, hseed]
    by_cases hcb : c = b
    · subst hcb
      have hfresh : ∀ x, (c, x) ∉ seeds := fun x hx =>
        hnodup.1 (List.mem_map.mpr ⟨(c, x), hx, rfl⟩)
      simp [hfresh, eq_comm]
    · simp [hcb, Ne.symm hcb]

theorem isPending_seedAll (p : Pass V S) (b : BlockId) :
    (p.seedAll seeds).IsPending b ↔ b ∈ seeds.map Prod.fst ∨ p.IsPending b := by
  induction seeds generalizing p with
  | nil => simp [seedAll]
  | cons e seeds ih =>
    have hseed : (p.seed e.1 e.2).IsPending b ↔ b = e.1 ∨ p.IsPending b := Worklist.mem_push
    change ((p.seed e.1 e.2).seedAll seeds).IsPending b ↔ _
    rw [ih, hseed, List.map_cons, List.mem_cons]
    tauto

/-- Seeding touches inputs and the worklist only. -/
theorem seedAll_rest (seeds : List (BlockId × S)) (p : Pass V S) (h : p.pending.Sound) :
    (p.seedAll seeds).pending.Sound ∧ (p.seedAll seeds).updates = p.updates ∧
      (p.seedAll seeds).slots = p.slots ∧
      (p.seedAll seeds).findings = { p.findings with inputs := (p.seedAll seeds).findings.inputs } ∧
      (p.seedAll seeds).visits = p.visits ∧ (p.seedAll seeds).pending.order = p.pending.order := by
  induction seeds generalizing p with
  | nil => exact ⟨h, rfl, rfl, rfl, rfl, rfl⟩
  | cons e seeds ih =>
    obtain ⟨hsound, hupdates, hslots, hfindings, hvisits, horder⟩ :=
      ih (p.seed e.1 e.2) (h.push e.1)
    exact ⟨hsound, hupdates, hslots, hfindings, hvisits, horder.trans (p.pending.order_push e.1)⟩

end Pass

namespace Analysis

variable {a : Analysis V S} {settings : Settings} {g : Graph} {s : Setup V S} {start : Pass V S}

theorem prepare_eq_ok (h : a.prepare settings g = .ok (s, start)) :
    ∃ seeds order points, a.seeds g = .ok seeds ∧ g.blockOrder a.direction = .ok order ∧
      g.wideningPoints a.direction = .ok points ∧
      s = { graph := g, analysis := a, settings, wideningPoints := points } ∧
      start = Pass.seedAll { pending := .ofOrder order } seeds := by
  unfold prepare at h
  cases hseeds : a.seeds g with
  | error id => simp [hseeds, bind, Except.bind] at h
  | ok seeds =>
    cases horder : g.blockOrder a.direction with
    | error id => simp [hseeds, horder, bind, Except.bind] at h
    | ok order =>
      cases hpoints : g.wideningPoints a.direction with
      | error id => simp [hseeds, horder, hpoints, bind, Except.bind] at h
      | ok points =>
        simp only [hseeds, horder, hpoints, bind, Except.bind, pure, Except.pure, Except.ok.injEq,
          Prod.mk.injEq] at h
        exact ⟨seeds, order, points, rfl, rfl, rfl, h.1.symm, h.2.symm⟩

/-- The start blocks with their stores, given the nodes that end the method. -/
def seedsOf (a : Analysis V S) (g : Graph) : List (BlockId × S) :=
  match a.boundary with
  | .forward initial => [(g.entry, initial g.code)]
  | .backward regularExit exceptionalExit =>
    [(g.regularExit, regularExit g.code g.returning), (g.exceptionalExit, exceptionalExit g.code)]

/-- The total form of the seeds is their result. -/
theorem seeds_eq (a : Analysis V S) (hg : g.WellFormed) : a.seeds g = .ok (a.seedsOf g) := by
  unfold seeds seedsOf
  cases a.boundary with
  | forward initial => rfl
  | backward regularExit exceptionalExit => rw [hg.returnNodes_eq]; rfl

/-- Flow starts at the entry, or at the two exits. -/
theorem seedsOf_fst (a : Analysis V S) (g : Graph) :
    (a.seedsOf g).map Prod.fst = a.direction.starts g := by
  unfold seedsOf direction
  cases a.boundary <;> rfl

theorem starts_nodup (d : Direction) (g : Graph) : (d.starts g).Nodup := by
  cases d <;> simp [Direction.starts, Graph.regularExit, Graph.exceptionalExit]

/-- The state before the first visit: only the start blocks have an input and are pending. -/
structure Started (a : Analysis V S) (g : Graph) (start : Pass V S) : Prop where
  input : ∀ b φ, start.input? b = some φ ↔ ∃ store, (b, store) ∈ a.seedsOf g ∧ φ = .single store
  isPending : ∀ b, start.IsPending b ↔ b ∈ a.direction.starts g
  sound : start.pending.Sound
  changes : ∀ b, start.changes b = 0
  slots : ∀ b, start.slotsOf b = {}
  values : start.findings.values = ∅
  trees : start.findings.trees = ∅
  visits : start.visits = 0

theorem started_of_prepare (hg : g.WellFormed) (h : a.prepare settings g = .ok (s, start)) :
    a.Started g start := by
  obtain ⟨seeds, order, points, hseeds, -, -, -, rfl⟩ := prepare_eq_ok h
  obtain rfl : a.seedsOf g = seeds := Except.ok.inj ((a.seeds_eq hg).symm.trans hseeds)
  have hnodup : ((a.seedsOf g).map Prod.fst).Nodup := a.seedsOf_fst g ▸ starts_nodup a.direction g
  obtain ⟨hsound, hupdates, hslots, hfindings, hvisits, -⟩ :=
    Pass.seedAll_rest (a.seedsOf g) ({ pending := .ofOrder order } : Pass V S)
      (Worklist.sound_ofOrder order)
  refine ⟨?_, ?_, hsound, ?_, ?_, by rw [hfindings], by rw [hfindings], hvisits⟩
  · intro b φ
    rw [Pass.input?_seedAll hnodup]
    simp [Pass.input?]
  · intro b
    rw [Pass.isPending_seedAll, a.seedsOf_fst]
    simp [Pass.IsPending, Worklist.ofOrder]
  · intro b
    simp [Pass.changes, hupdates]
  · intro b
    simp [Pass.slotsOf, hslots]

/-- Blocks are taken in the block order of the direction. -/
theorem order_of_prepare (h : a.prepare settings g = .ok (s, start)) :
    g.blockOrder a.direction = .ok start.pending.order := by
  obtain ⟨seeds, order, points, -, horder, -, -, rfl⟩ := prepare_eq_ok h
  obtain ⟨-, -, -, -, -, hkept⟩ :=
    Pass.seedAll_rest seeds ({ pending := .ofOrder order } : Pass V S)
      (Worklist.sound_ofOrder order)
  rw [hkept, horder]
  rfl

theorem Started.isSome_input (h : a.Started g start) {b : BlockId} :
    (start.input? b).isSome ↔ b ∈ a.direction.starts g := by
  rw [← a.seedsOf_fst, Option.isSome_iff_exists, List.mem_map]
  constructor
  · rintro ⟨φ, hφ⟩
    obtain ⟨store, hmem, -⟩ := (h.input b φ).mp hφ
    exact ⟨_, hmem, rfl⟩
  · rintro ⟨⟨c, store⟩, hmem, rfl⟩
    exact ⟨.single store, (h.input c _).mpr ⟨store, hmem, rfl⟩⟩

end Analysis

namespace Setup

/-- A set-up on a well-formed graph, with the state it starts from. -/
structure Starts (s : Setup V S) (start : Pass V S) : Prop where
  wellFormed : s.graph.WellFormed
  started : s.analysis.Started s.graph start

variable {s : Setup V S} {start p : Pass V S}

theorem Starts.orderly (hs : s.Starts start) : s.Orderly start := by
  refine ⟨hs.started.sound, ?_, ?_⟩
  · intro b hb
    exact hs.started.isSome_input.mpr ((hs.started.isPending b).mp hb)
  · intro b hb
    unfold Pass.Matched
    rw [hs.started.slots]
    change start.input? b = none
    by_contra hsome
    have hstart := hs.started.isSome_input.mp (Option.isSome_iff_ne_none.mpr hsome)
    obtain ⟨block, kind, hblock, hkind⟩ := hs.wellFormed.kind_of_starts hstart
    simp [slotted, hblock, hkind] at hb

variable [Store S] [DecidableEq S] [DecidableEq V]

theorem Starts.orderly_of_reached (hs : s.Starts start) (h : s.Reached start p) : s.Orderly p :=
  hs.orderly.reached hs.wellFormed h

/-- A block has an input only where flow has come from the start blocks. -/
theorem Starts.holds_of_input (hs : s.Starts start) (h : s.Reached start p)
    {P : BlockId → Prop} (hstart : ∀ b ∈ s.analysis.direction.starts s.graph, P b)
    (hedge : ∀ e ∈ s.graph.edges, P (s.analysis.direction.tail e) → P (s.analysis.direction.head e))
    {b : BlockId} (hb : (p.input? b).isSome) : P b := by
  induction h generalizing b with
  | refl => exact hstart b (hs.started.isSome_input.mp hb)
  | tail hbefore hstep ih =>
    obtain ⟨c, hstep⟩ := hstep
    obtain ⟨input, hframe⟩ := hstep.stepped hs.wellFormed (hs.orderly_of_reached hbefore)
    by_cases hreach : b ∈ s.reachedFrom c
    · obtain ⟨e, he, rfl, rfl⟩ := exists_edge_of_reachedFrom hs.wellFormed hreach
      exact hedge e he (ih (by simp [hframe.arrived]))
    · rw [hframe.quiet b (hframe.elsewhere b hreach)] at hb
      exact ih hb

/-- Only blocks of the graph get an input. -/
theorem Starts.block_of_input (hs : s.Starts start) (h : s.Reached start p) {b : BlockId}
    (hb : (p.input? b).isSome) : ∃ block, s.graph.block? b = some block := by
  refine hs.holds_of_input h (P := fun b => ∃ block, s.graph.block? b = some block) ?_ ?_ hb
  · intro b hb
    obtain ⟨block, _, hblock, -⟩ := hs.wellFormed.kind_of_starts hb
    exact ⟨block, hblock⟩
  · intro e he _
    exact hs.wellFormed.exists_block_head _ he

/-- Where no merge can fail, the visit that is next succeeds. -/
theorem Starts.exists_visit [LawfulJoin S] (hs : s.Starts start) (h : s.Reached start p)
    (hmerges : ∀ c, s.JoinsAt c ∨ s.settings.checkContracts = false) {b : BlockId}
    {pending : Worklist} (hpop : p.pending.pop? = some (b, pending)) :
    ∃ p', s.visit b { p with pending, visits := p.visits + 1 } = .ok p' := by
  have horderly := hs.orderly_of_reached h
  have hsome := horderly.input_of_pending b (horderly.sound.pop?_eq_some hpop).1
  obtain ⟨block, hblock⟩ := hs.block_of_input h hsome
  obtain ⟨input, hinput⟩ := Option.isSome_iff_exists.mp hsome
  have hvisit := visit_eq (p := { p with pending, visits := p.visits + 1 }) hs.wellFormed hblock
    hinput
  obtain ⟨q, hq⟩ : ∃ q, s.deliverAll (s.parcelsOf b (s.walkOf b p input).last)
      (s.walked b p input pending) = .ok q :=
    exists_deliverAll (fun e _ => hmerges e.1) _
  exact ⟨_, hvisit.trans (congrArg (Except.map _) hq)⟩

/-- Where no merge can fail, a run that fails has come to a state with a pending block and has used
up its visits. -/
theorem Starts.failure_of_run [LawfulJoin S] (hs : s.Starts start)
    (hmerges : ∀ c, s.JoinsAt c ∨ s.settings.checkContracts = false) {left : Nat}
    (hp : s.Reached start p) {failure : Failure V S} (h : s.run left p = .error failure) :
    ∃ q b pending, s.Reached start q ∧ q.pending.pop? = some (b, pending) ∧
      failure = {
        fault := .malformed (.nonTermination s.settings.maxVisits)
        pass := { q with pending, visits := q.visits + 1 } } := by
  induction left generalizing p with
  | zero =>
    unfold run at h
    split at h
    · cases h
    · next b pending hpop => exact ⟨p, b, pending, hp, hpop, (Except.error.inj h).symm⟩
  | succ left ih =>
    cases hpop : p.pending.pop? with
    | none =>
      unfold run at h
      simp [hpop] at h
    | some next =>
      obtain ⟨b, pending⟩ := next
      obtain ⟨p', hok⟩ := hs.exists_visit hp hmerges hpop
      rw [run_succ hpop, hok] at h
      exact ih (hp.tail ⟨b, pending, hpop, hok⟩) h

end Setup

namespace Analysis

variable {a : Analysis V S} {settings : Settings} {g : Graph} {s : Setup V S} {start : Pass V S}

theorem starts_of_prepare (hg : g.WellFormed) (h : a.prepare settings g = .ok (s, start)) :
    s.Starts start ∧ s.graph = g ∧ s.analysis = a ∧ s.settings = settings := by
  have hstarted := started_of_prepare hg h
  obtain ⟨seeds, order, points, -, -, -, rfl, -⟩ := prepare_eq_ok h
  exact ⟨⟨hg, hstarted⟩, rfl, rfl, rfl⟩

variable [Store S] [DecidableEq S] [DecidableEq V]

/-- A successful analysis is a run from the state it prepares to one with nothing pending. -/
theorem solve_eq_ok (hg : g.WellFormed) {p : Pass V S} (h : a.solve settings g = .ok p) :
    ∃ s start, a.prepare settings g = .ok (s, start) ∧ s.Reached start p ∧
      ∀ b, ¬ p.IsPending b := by
  unfold solve at h
  split at h
  · cases h
  · next s start hprepare =>
    obtain ⟨hreached, hnone⟩ := Setup.reached_of_run h
    have horderly := (starts_of_prepare hg hprepare).1.orderly_of_reached hreached
    exact ⟨s, start, hprepare, hreached, horderly.sound.pop?_eq_none_iff.mp hnone⟩

end Analysis

end FlowFixpoint
