/-
# FlowFixpoint.Proofs.WideningPoints — widening points stand on the cycles of flow, and only there.

A round is a sequence of flow edges that ends where it began; blocks may repeat on it, and edges may
be parallel or lead from a block to itself. Every round that flow reaches holds a widening point,
since the finishing order cannot rise all the way round. Conversely an edge into a widening point
does not rise, so its head was still open when its tail was left, and an open block leads to
everything explored below it: the edge closes a round, which can be cut short until no block
repeats.

Which blocks are widening points depends on the order in which the walk follows the edges out of a
block, that they cut all rounds does not. In both directions the walk leaves the blocks as a loop
with a stack of its own does that looks at the oldest edge out of a block first; `Trail.Turns` says
so without the recursion that computes the order.
-/
import FlowFixpoint.Proofs.StackWalks
import FlowFixpoint.Proofs.Termination

namespace FlowFixpoint.Graph

open Relation (ReflTransGen TransGen)

variable {g : Graph} {d : Direction} {b c m : BlockId} {e : Edge} {es es' : List Edge}

/-! ## Paths and rounds -/

/-- Flow edges, one behind the other, lead from one block to another. -/
def Path (g : Graph) (d : Direction) : BlockId → List Edge → BlockId → Prop
  | b, [], c => b = c
  | b, e :: es, c => e ∈ g.edges ∧ d.tail e = b ∧ Path g d (d.head e) es c

/-- Flow edges lead from a block back to it. -/
def Round (g : Graph) (d : Direction) (b : BlockId) (es : List Edge) : Prop :=
  es ≠ [] ∧ g.Path d b es b

/-- The blocks that flow leaves along some edges. -/
def passes (d : Direction) (es : List Edge) : List BlockId := es.map d.tail

instance decidablePath (g : Graph) (d : Direction) :
    (b : BlockId) → (es : List Edge) → (c : BlockId) → Decidable (g.Path d b es c)
  | b, [], c => inferInstanceAs (Decidable (b = c))
  | b, e :: es, c =>
    have := decidablePath g d (d.head e) es c
    inferInstanceAs (Decidable (e ∈ g.edges ∧ d.tail e = b ∧ g.Path d (d.head e) es c))

instance (g : Graph) (d : Direction) (b : BlockId) (es : List Edge) : Decidable (g.Round d b es) :=
  inferInstanceAs (Decidable (es ≠ [] ∧ g.Path d b es b))

theorem path_append : g.Path d b (es ++ es') c ↔ ∃ m, g.Path d b es m ∧ g.Path d m es' c := by
  induction es generalizing b with
  | nil => simp [Path]
  | cons e es ih => simp [Path, ih, and_assoc]

/-- A path goes from the tails of its edges to their heads. -/
theorem Path.passes_concat (h : g.Path d b es c) : passes d es ++ [c] = b :: es.map d.head := by
  induction es generalizing b with
  | nil =>
    show [c] = [b]
    rw [show b = c from h]
  | cons e es ih =>
    obtain ⟨-, rfl, hrest⟩ := h
    show d.tail e :: (passes d es ++ [c]) = _
    rw [ih hrest, List.map_cons]

theorem Path.flows (h : g.Path d b es c) : ReflTransGen (g.FlowsTo d) b c := by
  induction es generalizing b with
  | nil =>
    obtain rfl : b = c := h
    exact .refl
  | cons e es ih =>
    obtain ⟨he, htail, hrest⟩ := h
    exact .head ⟨e, he, htail, rfl⟩ (ih hrest)

theorem exists_path (h : ReflTransGen (g.FlowsTo d) b c) : ∃ es, g.Path d b es c := by
  induction h using ReflTransGen.head_induction_on with
  | refl => exact ⟨[], rfl⟩
  | head hstep _ ih =>
    obtain ⟨e, he, htail, rfl⟩ := hstep
    obtain ⟨es, hes⟩ := ih
    exact ⟨e :: es, he, htail, hes⟩

/-- A path may be cut at a block that it passes. -/
theorem Path.exists_split (h : g.Path d b es c) (hm : m ∈ passes d es) :
    ∃ before after, es = before ++ after ∧ after ≠ [] ∧ g.Path d m after c := by
  obtain ⟨e, he, rfl⟩ := List.mem_map.mp hm
  obtain ⟨before, after, rfl⟩ := List.append_of_mem he
  obtain ⟨_, -, hafter⟩ := path_append.mp h
  obtain rfl := hafter.2.1
  exact ⟨before, e :: after, rfl, List.cons_ne_nil e after, hafter⟩

/-- A path that passes a block again can leave out what lies between. -/
theorem Path.exists_simple (h : g.Path d b es c) :
    ∃ es', g.Path d b es' c ∧ (passes d es').Nodup ∧ (es ≠ [] → es' ≠ []) := by
  induction es generalizing b with
  | nil => exact ⟨[], h, List.nodup_nil, fun hne => hne⟩
  | cons e es ih =>
    obtain ⟨he, rfl, hrest⟩ := h
    obtain ⟨rest, hrest, hnodup, -⟩ := ih hrest
    by_cases hagain : d.tail e ∈ passes d rest
    · obtain ⟨before, after, rfl, hne, hafter⟩ := hrest.exists_split hagain
      refine ⟨after, hafter, ?_, fun _ => hne⟩
      apply List.Nodup.sublist _ hnodup
      exact (List.sublist_append_right before after).map d.tail
    · exact ⟨e :: rest, ⟨he, rfl, hrest⟩, List.nodup_cons.mpr ⟨hagain, hnodup⟩,
        fun _ => List.cons_ne_nil e rest⟩

/-- A round passes the block it begins at. -/
theorem Round.mem_passes (h : g.Round d b es) : b ∈ passes d es := by
  obtain ⟨hne, hpath⟩ := h
  cases es with
  | nil => exact absurd rfl hne
  | cons e es =>
    rw [← hpath.2.1]
    exact List.mem_cons_self

/-- A round comes to no block that it does not pass. -/
theorem Round.head_mem_passes (h : g.Round d b es) (he : e ∈ es) : d.head e ∈ passes d es := by
  have hmem : d.head e ∈ passes d es ++ [b] := by
    rw [h.2.passes_concat]
    exact List.mem_cons_of_mem b (List.mem_map_of_mem he)
  rcases List.mem_append.mp hmem with hpass | hback
  · exact hpass
  · rw [List.mem_singleton.mp hback]
    exact h.mem_passes

/-- Flow that reaches one block of a round reaches the block where it begins. -/
theorem Round.reaches (h : g.Round d b es) (hm : m ∈ passes d es) (hreach : g.Reaches d m) :
    g.Reaches d b := by
  obtain ⟨-, after, -, -, hafter⟩ := h.2.exists_split hm
  obtain ⟨r, hr, hpath⟩ := hreach
  exact ⟨r, hr, hpath.trans hafter.flows⟩

/-- Where flow comes back to a block, it does so on a round that passes no block twice. -/
theorem exists_round (h : TransGen (g.FlowsTo d) b b) :
    ∃ es, g.Round d b es ∧ (passes d es).Nodup := by
  obtain ⟨_, ⟨e, he, htail, rfl⟩, hrest⟩ := TransGen.head'_iff.mp h
  obtain ⟨es, hes⟩ := exists_path hrest
  have hround : g.Path d b (e :: es) b := ⟨he, htail, hes⟩
  obtain ⟨es', hpath, hnodup, hne⟩ := hround.exists_simple
  exact ⟨es', ⟨hne (List.cons_ne_nil e es), hpath⟩, hnodup⟩

/-! ## Widening points -/

/-- The blocks that flow reaches next from a block, the oldest edge first. -/
def onward (g : Graph) (d : Direction) (b : BlockId) : List BlockId :=
  (g.edges.filter fun e => d.tail e = b).map d.head

theorem next_flowOf (g : Graph) (d : Direction) : (g.flowOf d).next = g.onward d := by
  funext b
  rw [FlowGraph.next, flowOf, List.filter_map, List.map_map]
  rfl

/-- A block is a widening point exactly if an edge leads to it from a block that the walk leaves no
later. -/
theorem mem_pointsOf_iff : b ∈ g.pointsOf d ↔ ∃ e ∈ g.edges, d.head e = b ∧
    d.tail e ∈ g.finishedOf d ∧ b ∈ g.finishedOf d ∧
    (g.finishedOf d).idxOf b ≤ (g.finishedOf d).idxOf (d.tail e) := by
  rw [pointsOf, Std.ExtTreeSet.mem_ofList, List.contains_iff_mem, List.mem_map]
  constructor
  · rintro ⟨arc, hmem, rfl⟩
    obtain ⟨harc, hretreats⟩ := List.mem_filter.mp hmem
    obtain ⟨e, he, rfl⟩ := List.mem_map.mp harc
    simp only [retreats, Bool.and_eq_true, decide_eq_true_eq] at hretreats
    exact ⟨e, he, rfl, hretreats.1.1, hretreats.1.2, hretreats.2⟩
  · rintro ⟨e, he, rfl, htail, hhead, hle⟩
    refine ⟨(d.tail e, d.head e), List.mem_filter.mpr ⟨List.mem_map_of_mem he, ?_⟩, rfl⟩
    simp [retreats, htail, hhead, hle]

namespace WellFormed

variable (hg : g.WellFormed)

include hg

/-- A widening point is the head of an edge along which the finishing order does not rise. -/
theorem exists_edge_of_mem_pointsOf (h : b ∈ g.pointsOf d) : ∃ e ∈ g.edges, d.head e = b ∧
    g.Reaches d (d.tail e) ∧ (g.finishedOf d).idxOf b ≤ (g.finishedOf d).idxOf (d.tail e) := by
  obtain ⟨e, he, hhead, htail, -, hle⟩ := mem_pointsOf_iff.mp h
  exact ⟨e, he, hhead, hg.mem_finishedOf.mp htail, hle⟩

/-- Along a path without widening points the finishing order rises with every edge. -/
theorem idxOf_add_length_le (h : g.Path d b es c) (hreach : g.Reaches d b)
    (hfree : ∀ e ∈ es, d.head e ∉ g.pointsOf d) :
    (g.finishedOf d).idxOf b + es.length ≤ (g.finishedOf d).idxOf c := by
  induction es generalizing b with
  | nil => rw [show b = c from h, List.length_nil, Nat.add_zero]
  | cons e es ih =>
    obtain ⟨he, rfl, hrest⟩ := h
    obtain ⟨hhead, hfree⟩ := List.forall_mem_cons.mp hfree
    have hpoint : (g.pointsOf d).contains (d.head e) = false := by
      rw [← Bool.not_eq_true, Std.ExtTreeSet.contains_iff_mem]
      exact hhead
    have hrises := (hg.ranks_finishedOf d).rises e he (hg.mem_finishedOf.mpr hreach) hpoint
    have hle := ih hrest (hreach.tail ⟨e, he, rfl, rfl⟩) hfree
    rw [List.length_cons]
    omega

/-- Every round that flow reaches passes a widening point. -/
theorem exists_point_of_round (h : g.Round d b es) (hm : m ∈ passes d es)
    (hreach : g.Reaches d m) : ∃ c ∈ passes d es, c ∈ g.pointsOf d := by
  by_contra hnone
  have hfree : ∀ e ∈ es, d.head e ∉ g.pointsOf d := fun e he hpoint =>
    hnone ⟨d.head e, h.head_mem_passes he, hpoint⟩
  have hlength : 0 < es.length := List.length_pos_iff.mpr h.1
  -- all the way round the rank of the first block would lie above itself
  have hle := hg.idxOf_add_length_le h.2 (h.reaches hm hreach) hfree
  omega

/-- Flow reaches every widening point and comes back to it. -/
theorem returns_of_mem_pointsOf (h : b ∈ g.pointsOf d) :
    g.Reaches d b ∧ TransGen (g.FlowsTo d) b b := by
  obtain ⟨e, he, rfl, htail, hle⟩ := hg.exists_edge_of_mem_pointsOf h
  have hflows : g.FlowsTo d (d.tail e) (d.head e) := ⟨e, he, rfl, rfl⟩
  refine ⟨htail.tail hflows, ?_⟩
  rcases hg.rises_or_returns he htail with hrises | hback
  · omega
  · exact .tail' hback hflows

/-- A walk with a stack of its own leaves the blocks in the finishing order. -/
theorem turns_finishedOf (d : Direction) :
    ∃ seen, Trail.Turns (g.onward d) (d.starts g, {}) ([], ⟨seen, g.finishedOf d⟩) := by
  have hdepth : (g.blocks.toList.map Block.id).length ≤ g.blocks.size := by simp
  have hturns := Trail.turns_ofRoots (hg.blockIds_closed d) (hg.starts_mem_blockIds d) hdepth
  rw [← next_flowOf]
  exact ⟨_, hturns⟩

/-- There is no widening point exactly where flow goes round nowhere. -/
theorem pointsOf_eq_empty_iff : g.pointsOf d = ∅ ↔ g.Acyclic d := by
  constructor
  · intro hempty b hreach hback
    obtain ⟨es, hround, -⟩ := exists_round hback
    obtain ⟨c, -, hpoint⟩ := hg.exists_point_of_round hround hround.mem_passes hreach
    simp [hempty] at hpoint
  · intro hacyclic
    apply Std.ExtTreeSet.eq_empty_iff_forall_not_mem.mpr
    intro b hpoint
    obtain ⟨hreach, hback⟩ := hg.returns_of_mem_pointsOf hpoint
    exact hacyclic b hreach hback

end WellFormed

end FlowFixpoint.Graph

namespace FlowFixpoint

/-- Widening points cut the cycles of flow and nothing else. In either direction they are the heads of
the edges that retreat in a depth-first walk from the start blocks; every round that flow reaches
passes one; each of them is reached, and lies on a round that passes no block twice; and there are
none exactly where flow goes round nowhere. -/
theorem widening_points_cut_cycles (g : Graph) (hg : g.Built) (d : Direction) :
    ∃ points, g.wideningPoints d = .ok points ∧
      (∃ seen finished, Trail.Turns (g.onward d) (d.starts g, {}) ([], ⟨seen, finished⟩) ∧
        ∀ b, b ∈ points ↔ ∃ e ∈ g.edges, d.head e = b ∧ d.tail e ∈ finished ∧ b ∈ finished ∧
          finished.idxOf b ≤ finished.idxOf (d.tail e)) ∧
      (∀ b es, g.Round d b es → (∃ c ∈ Graph.passes d es, g.Reaches d c) →
        ∃ c ∈ Graph.passes d es, c ∈ points) ∧
      (∀ b ∈ points, g.Reaches d b ∧ ∃ es, g.Round d b es ∧ (Graph.passes d es).Nodup) ∧
      (points = ∅ ↔ g.Acyclic d) := by
  have hwf := hg.wellFormed
  obtain ⟨seen, hturns⟩ := hwf.turns_finishedOf d
  refine ⟨g.pointsOf d, hwf.wideningPoints_eq d,
    ⟨seen, g.finishedOf d, hturns, fun b => Graph.mem_pointsOf_iff⟩, ?_, ?_,
    hwf.pointsOf_eq_empty_iff⟩
  · rintro b es hround ⟨c, hc, hreach⟩
    exact hwf.exists_point_of_round hround hc hreach
  · intro b hpoint
    obtain ⟨hreach, hback⟩ := hwf.returns_of_mem_pointsOf hpoint
    exact ⟨hreach, Graph.exists_round hback⟩

/-- The irreducible loop is cut, although it can be entered at two blocks; backward as well. -/
theorem irreducibleLoop_cut :
    irreducibleLoop.Built ∧
      irreducibleLoop.Round .forward ⟨0, 4⟩ [⟨⟨0, 4⟩, ⟨0, 5⟩, .unconditional⟩,
        ⟨⟨0, 5⟩, ⟨0, 6⟩, .unconditional⟩, ⟨⟨0, 6⟩, ⟨0, 4⟩, .onTrue⟩] ∧
      irreducibleLoop.Reaches .forward ⟨0, 5⟩ ∧
      (∃ points, irreducibleLoop.wideningPoints .forward = .ok points ∧
        ∃ c ∈ [⟨0, 4⟩, ⟨0, 5⟩, ⟨0, 6⟩], c ∈ points) ∧
      ∃ points, irreducibleLoop.wideningPoints .backward = .ok points ∧
        (points = ∅ ↔ irreducibleLoop.Acyclic .backward) := by
  have hround : irreducibleLoop.Round .forward ⟨0, 4⟩ [⟨⟨0, 4⟩, ⟨0, 5⟩, .unconditional⟩,
      ⟨⟨0, 5⟩, ⟨0, 6⟩, .unconditional⟩, ⟨⟨0, 6⟩, ⟨0, 4⟩, .onTrue⟩] := by
    decide +kernel
  have hreach : irreducibleLoop.Reaches .forward ⟨0, 5⟩ :=
    irreducibleLoop_built.wellFormed.mem_finishedOf.mp (by decide +kernel)
  obtain ⟨points, hpoints, -, hcut, -⟩ :=
    widening_points_cut_cycles irreducibleLoop irreducibleLoop_built .forward
  obtain ⟨back, hback, -, -, -, hempty⟩ :=
    widening_points_cut_cycles irreducibleLoop irreducibleLoop_built .backward
  exact ⟨irreducibleLoop_built, hround, hreach,
    ⟨points, hpoints, hcut _ _ hround ⟨⟨0, 5⟩, by decide, hreach⟩⟩, back, hback, hempty⟩

end FlowFixpoint
