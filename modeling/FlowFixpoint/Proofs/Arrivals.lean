/-
# FlowFixpoint.Proofs.Arrivals — an input is the join of what has arrived.

Forward, and where merges are joins, the engine adds nothing of its own. At any time the recorded
input of a block is the join of what flow starts with there and of everything that the visits made so
far have sent along the edges into it, in the order in which it came. Since joins are lawful the
order does not show: rows with the same members have the same join, the least element above them.
-/
import FlowFixpoint.Proofs.History
import FlowFixpoint.Proofs.InertSettings

namespace FlowFixpoint

/-! ## Joining a row -/

section Row

variable {α : Type} [Join α]

/-- Joins one more element to what is there, if anything is. -/
def joinOnto : Option α → α → Option α
  | none, x => some x
  | some y, x => some (join y x)

/-- The join of a row of elements; an empty row has none. -/
def joinAll (xs : List α) : Option α := xs.foldl joinOnto none

theorem isSome_foldl_joinOnto {acc : Option α} {xs : List α} :
    (xs.foldl joinOnto acc).isSome ↔ acc.isSome ∨ xs ≠ [] := by
  induction xs generalizing acc with
  | nil => simp
  | cons x xs ih =>
    rw [List.foldl_cons, ih]
    cases acc <;> simp [joinOnto]

theorem isSome_joinAll {xs : List α} : (joinAll xs).isSome ↔ ∃ x, x ∈ xs := by
  simp [joinAll, isSome_foldl_joinOnto, List.eq_nil_iff_forall_not_mem]

/-- A function that keeps joins keeps the join of a row. -/
theorem joinAll_map {β : Type} [Join β] {f : α → β} (hf : ∀ x y, f (join x y) = join (f x) (f y))
    (xs : List α) : joinAll (xs.map f) = (joinAll xs).map f := by
  have hmain : ∀ acc : Option α,
      (xs.map f).foldl joinOnto (acc.map f) = (xs.foldl joinOnto acc).map f := by
    induction xs with
    | nil => exact fun _ => rfl
    | cons x xs ih =>
      intro acc
      rw [List.map_cons, List.foldl_cons, List.foldl_cons, ← ih]
      cases acc with
      | none => rfl
      | some y => simp [joinOnto, hf]
  exact hmain none

variable [LawfulJoin α] {x y z : α}

/-- What is joined onto an element, or onto nothing, is the least element above all of it. -/
theorem foldl_joinOnto_below_iff {acc : Option α} {xs : List α} :
    (∀ y ∈ xs.foldl joinOnto acc, Below y z) ↔ (∀ y ∈ acc, Below y z) ∧ ∀ x ∈ xs, Below x z := by
  induction xs generalizing acc with
  | nil => simp
  | cons x xs ih =>
    rw [List.foldl_cons, ih, List.forall_mem_cons, ← and_assoc]
    refine and_congr_left' ?_
    cases acc with
    | none => simp [joinOnto]
    | some y => simp [joinOnto, join_below_iff]

theorem joinAll_below_iff {xs : List α} (h : joinAll xs = some y) :
    Below y z ↔ ∀ x ∈ xs, Below x z := by
  have hiff : (∀ x ∈ joinAll xs, Below x z) ↔ _ := foldl_joinOnto_below_iff
  rw [h] at hiff
  simpa using hiff

/-- Rows of which each bounds the members of the other have the same join. -/
theorem joinAll_eq_of_bounded {xs ys : List α} (hxy : ∀ x ∈ xs, ∃ y ∈ ys, Below x y)
    (hyx : ∀ y ∈ ys, ∃ x ∈ xs, Below y x) : joinAll xs = joinAll ys := by
  have hsome : (joinAll xs).isSome ↔ (joinAll ys).isSome := by
    rw [isSome_joinAll, isSome_joinAll]
    constructor
    · rintro ⟨x, hx⟩
      obtain ⟨y, hy, -⟩ := hxy x hx
      exact ⟨y, hy⟩
    · rintro ⟨y, hy⟩
      obtain ⟨x, hx, -⟩ := hyx y hy
      exact ⟨x, hx⟩
  cases hx : joinAll xs with
  | none =>
    rw [hx] at hsome
    exact (Option.not_isSome_iff_eq_none.mp fun hy => by simpa using hsome.mpr hy).symm
  | some x =>
    rw [hx] at hsome
    obtain ⟨y, hy⟩ := Option.isSome_iff_exists.mp (hsome.mp rfl)
    -- what is above one row is above the other, and both joins are least
    have hbelow : ∀ z, Below x z ↔ Below y z := by
      intro z
      rw [joinAll_below_iff hx, joinAll_below_iff hy]
      constructor
      · intro hz y hy
        obtain ⟨x, hx, hyx⟩ := hyx y hy
        exact hyx.trans (hz x hx)
      · intro hz x hx
        obtain ⟨y, hy, hxy⟩ := hxy x hx
        exact hxy.trans (hz y hy)
    rw [hy, Below.antisymm ((hbelow y).mpr (Below.refl y)) ((hbelow x).mp (Below.refl x))]

/-- The join of a row depends on the members of the row only. -/
theorem joinAll_congr {xs ys : List α} (h : ∀ x, x ∈ xs ↔ x ∈ ys) : joinAll xs = joinAll ys :=
  joinAll_eq_of_bounded (fun x hx => ⟨x, (h x).mp hx, Below.refl x⟩)
    fun y hy => ⟨y, (h y).mpr hy, Below.refl y⟩

end Row

/-! ## What visits send -/

variable {V S : Type} [Store S]

namespace Setup

/-- What leaves a block forward along an edge, given what the last node of the block yielded. -/
def leaving (s : Setup V S) (last : Outcome V S) (e : Edge) : Option (Flow S) :=
  (s.graph.block? e.target).map fun block => last.sentForward e.label block.kind

variable {s : Setup V S} {visits : List (BlockId × Pass V S)} {b c : BlockId}

theorem parcelsOf_forward (hforward : s.analysis.direction = .forward) (last : Outcome V S) :
    s.parcelsOf b last = (s.graph.successors b).filterMap fun e =>
      (s.leaving last e).map fun φ => (e.target, .input φ) := by
  simp only [parcelsOf, Graph.routesOf, hforward, List.map_filterMap, leaving, Option.map_map]
  rfl

variable [DecidableEq V]

/-- What a visit of the source of an edge, made in the state `q`, sends along the edge. -/
def sentAlong (s : Setup V S) (q : Pass V S) (e : Edge) : Option (Flow S) :=
  (q.input? e.source).bind fun input => s.leaving (s.walkOf e.source q input).last e

/-- What a visit sends to a block, edge by edge. -/
def sentTo (s : Setup V S) (c : BlockId) (v : BlockId × Pass V S) : List (Flow S) :=
  ((s.graph.successors v.1).filter fun e => e.target = c).filterMap (s.sentAlong v.2)

/-- What some visits have sent to a block, in the order of sending. -/
def arrivals (s : Setup V S) (visits : List (BlockId × Pass V S)) (c : BlockId) : List (Flow S) :=
  visits.flatMap (s.sentTo c)

theorem mem_arrivals (hg : s.graph.WellFormed) {φ : Flow S} :
    φ ∈ s.arrivals visits c ↔ ∃ v ∈ visits, ∃ e ∈ s.graph.edges,
      e.source = v.1 ∧ e.target = c ∧ s.sentAlong v.2 e = some φ := by
  simp only [arrivals, sentTo, List.mem_flatMap, List.mem_filterMap, List.mem_filter,
    hg.mem_successors, decide_eq_true_eq]
  constructor
  · rintro ⟨v, hv, e, ⟨⟨he, hsource⟩, htarget⟩, hsent⟩
    exact ⟨v, hv, e, he, hsource, htarget, hsent⟩
  · rintro ⟨v, hv, e, he, hsource, htarget, hsent⟩
    exact ⟨v, hv, e, ⟨⟨he, hsource⟩, htarget⟩, hsent⟩

end Setup

/-! ## What becomes of it -/

variable [DecidableEq S]

/-- A flow that is received is joined to the input of its block. -/
theorem Pass.input?_receive (p : Pass V S) (b c : BlockId) (φ : Flow S) :
    (p.receive b (.input φ)).input? c =
      if b = c then joinOnto (p.input? b) φ else p.input? c := by
  simp only [receive]
  cases hold : p.input? b with
  | none => simp [joinOnto]
  | some old =>
    simp only [joinOnto]
    split
    · next hsame =>
      -- a join that changes nothing is not recorded
      split
      · next hbc => rw [← hbc, hold, hsame]
      · rfl
    · exact input?_record p b c _

namespace Setup

variable [DecidableEq V] {s : Setup V S} {start p p' : Pass V S} {b c : BlockId}
  {visits : List (BlockId × Pass V S)}

omit [DecidableEq V] in
/-- Of what leaves a block along some edges, a block receives what is sent to it. -/
theorem input?_receiveAll (s : Setup V S) (last : Outcome V S) (c : BlockId) (es : List Edge)
    (q : Pass V S) :
    (q.receiveAll (es.filterMap fun e =>
        (s.leaving last e).map fun φ => (e.target, .input φ))).input? c =
      ((es.filter fun e => e.target = c).filterMap (s.leaving last)).foldl joinOnto (q.input? c) := by
  induction es generalizing q with
  | nil => rfl
  | cons e es ih =>
    cases hsent : s.leaving last e with
    | none => by_cases hc : e.target = c <;> simp [hsent, hc, ih]
    | some φ =>
      rw [List.filterMap_cons_some (b := (e.target, .input φ)) (by simp [hsent])]
      change ((q.receive e.target (.input φ)).receiveAll _).input? c = _
      rw [ih, Pass.input?_receive]
      by_cases hc : e.target = c <;> simp [hsent, hc]

variable [LawfulJoin S] [PlainWidening S] (hforward : s.analysis.direction = .forward)

include hforward

/-- A step joins to the input of each block what it sends there. -/
theorem Step.input?_eq (hg : s.graph.WellFormed) (ho : s.Orderly p) (h : s.Step b p p')
    (c : BlockId) : p'.input? c = (s.sentTo c (b, p)).foldl joinOnto (p.input? c) := by
  obtain ⟨input, pending, q, -, hinput, -, -, hq, rfl⟩ := h.spell hg ho
  rw [deliverAll_eq_receiveAll, parcelsOf_forward hforward] at hq
  obtain rfl := Except.ok.inj hq
  have hsent : s.sentTo c (b, p) = ((s.graph.successors b).filter fun e => e.target = c).filterMap
      (s.leaving (s.walkOf b p input).last) := by
    refine List.filterMap_congr fun e he => ?_
    have hsource : e.source = b := (hg.mem_successors.mp (List.mem_of_mem_filter he)).2
    simp [sentAlong, hsource, hinput]
  rw [Pass.input?_requeueIf, input?_receiveAll, input?_walked, hsent]

/-- At any time an input is the join of what flow starts with and of what has arrived. -/
theorem History.input?_eq (hs : s.Starts start) (h : s.History start visits p) (c : BlockId) :
    p.input? c = (s.arrivals visits c).foldl joinOnto (start.input? c) := by
  induction h with
  | nil => rfl
  | concat hbefore hstep ih =>
    rw [hstep.input?_eq hforward hs.wellFormed (hs.orderly_of_reached hbefore.reached), ih,
      arrivals, arrivals, List.flatMap_append, List.foldl_append, List.flatMap_singleton]

/-- Behind the entry an input is the join of what has arrived alone. -/
theorem History.input?_of_ne_entry (hs : s.Starts start) (h : s.History start visits p)
    (hc : c ≠ s.graph.entry) : p.input? c = joinAll (s.arrivals visits c) := by
  have hnone : start.input? c = none := by
    rw [← Option.not_isSome_iff_eq_none, hs.started.isSome_input, hforward]
    exact fun hstart => hc (List.mem_singleton.mp hstart)
  rw [h.input?_eq hforward hs, hnone]
  rfl

end Setup

end FlowFixpoint
