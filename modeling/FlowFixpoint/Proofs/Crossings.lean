/-
# FlowFixpoint.Proofs.Crossings — passing the nodes of a block, and what leaves it.

The walk through a block is described node by node: each node sees the flow that the nodes before it
left and the values as they stand there, and only the nodes of the block get values.

Crossing a block keeps what the block throws apart from the walk, and does so in exceptional blocks
only; elsewhere an edge for an exception would get what goes on regularly. In a well-formed graph
that never matters: edges for exceptions leave exceptional blocks, and those have exactly one node,
so what was kept is what this node throws. Along every edge goes what `Outcome.sent` reads off the
outcome of the node passed last.
-/
import FlowFixpoint.Fixpoint.Pass
import FlowFixpoint.Proofs.GraphViews
import Mathlib.Data.List.Induction

namespace FlowFixpoint

variable {V S : Type}

/-! ## Walks -/

namespace Walk

variable [DecidableEq V] {g : Graph} {a : Analysis V S}

@[simp]
theorem step_inputs (w : Walk V S) (n : Node) :
    (w.step g a n).findings.inputs = w.findings.inputs := by
  simp only [step]
  generalize a.transfer _ n w.last.flow = outcome
  cases h : outcome.value <;> rfl

theorem step_last (w : Walk V S) (n : Node) :
    (w.step g a n).last =
      a.transfer { graph := g, values := w.findings.values, replay := false } n w.last.flow := rfl

/-- A step may give a value to its own node only. -/
theorem step_values (w : Walk V S) (n : Node) (m : NodeId) :
    (w.step g a n).findings.values[m]? =
      if n.id = m then (w.step g a n).last.value.or w.findings.values[m]?
      else w.findings.values[m]? := by
  rw [step_last]
  simp only [step, Findings.noteTrees]
  generalize a.transfer _ n w.last.flow = outcome
  cases outcome.value with
  | none => simp [Findings.noteValue, Findings.noteFinals]
  | some v =>
    simp [Findings.noteValue, Findings.noteFinals, Std.ExtTreeMap.getElem?_insert]

/-- A step notes a change exactly when the value of its node becomes another one. -/
theorem step_changed (w : Walk V S) (n : Node) :
    (w.step g a n).changed = true ↔
      w.changed = true ∨ (w.step g a n).findings.values[n.id]? ≠ w.findings.values[n.id]? := by
  rw [step_values, if_pos rfl, step_last]
  simp only [step, Findings.noteTrees]
  generalize a.transfer _ n w.last.flow = outcome
  cases outcome.value with
  | none => simp [Findings.isNews]
  | some v =>
    rw [Bool.or_eq_true]
    exact or_congr_right ((decide_eq_true_iff).trans ne_comm)

theorem through_concat (f : Findings V S) (input : Flow S) (ns : List Node) (n : Node) :
    through g a f input (ns ++ [n]) = (through g a f input ns).step g a n := by
  simp [through]

variable (g a) (f : Findings V S) (input : Flow S)

@[simp]
theorem through_inputs (ns : List Node) : (through g a f input ns).findings.inputs = f.inputs := by
  induction ns using List.reverseRecOn with
  | nil => rfl
  | append_singleton ns n ih => rw [through_concat, step_inputs, ih]

/-- What a longer walk does not touch any more is as a shorter walk left it. -/
theorem through_values_append (pre post : List Node) {m : NodeId} (hm : ∀ n ∈ post, n.id ≠ m) :
    (through g a f input (pre ++ post)).findings.values[m]? =
      (through g a f input pre).findings.values[m]? := by
  induction post using List.reverseRecOn with
  | nil => rw [List.append_nil]
  | append_singleton post n ih =>
    rw [← List.append_assoc, through_concat, step_values, if_neg (hm n (by simp))]
    exact ih fun k hk => hm k (by simp [hk])

/-- A walk gives values to its own nodes only. -/
theorem through_values_of_not_mem {ns : List Node} {m : NodeId} (hm : ∀ n ∈ ns, n.id ≠ m) :
    (through g a f input ns).findings.values[m]? = f.values[m]? :=
  through_values_append g a f input [] ns hm

/-- A walk notes a change exactly when it changes the table of values. -/
theorem through_changed {ns : List Node} (hnodup : (ns.map Node.id).Nodup) :
    (through g a f input ns).changed = false ↔
      (through g a f input ns).findings.values = f.values := by
  induction ns using List.reverseRecOn with
  | nil => simp [through]
  | append_singleton ns n ih =>
    rw [List.map_append, List.nodup_append] at hnodup
    obtain ⟨hns, -, hdisjoint⟩ := hnodup
    have hfresh : ∀ k ∈ ns, k.id ≠ n.id := fun k hk =>
      hdisjoint k.id (List.mem_map_of_mem hk) n.id (by simp)
    -- nothing before `n` writes its value, so the last step is compared with the first table
    have hstart := through_values_of_not_mem g a f input hfresh
    rw [through_concat, Bool.eq_false_iff, ne_eq, step_changed, not_or, not_not, ← ne_eq,
      ← Bool.eq_false_iff, ih hns]
    constructor
    · rintro ⟨hvalues, hn⟩
      apply Std.ExtTreeMap.ext_getElem?
      intro m
      by_cases hm : n.id = m
      · rw [← hm, hn, hvalues]
      · rw [step_values, if_neg hm, hvalues]
    · intro hvalues
      refine ⟨?_, by rw [hvalues, hstart]⟩
      apply Std.ExtTreeMap.ext_getElem?
      intro m
      by_cases hm : n.id = m
      · rw [← hm, hstart]
      · rw [← hvalues, step_values, if_neg hm]

/-- The value that a walk leaves for one of its nodes: the one the node yielded where it stands, or
the earlier one if it yielded none. -/
theorem through_values_self {pre post : List Node} {n : Node}
    (hnodup : ((pre ++ n :: post).map Node.id).Nodup) :
    (through g a f input (pre ++ n :: post)).findings.values[n.id]? =
      (through g a f input (pre ++ [n])).last.value.or f.values[n.id]? := by
  rw [List.map_append, List.nodup_append, List.map_cons, List.nodup_cons] at hnodup
  obtain ⟨-, ⟨hpost, -⟩, hdisjoint⟩ := hnodup
  have hbefore : ∀ k ∈ pre, k.id ≠ n.id := fun k hk =>
    hdisjoint k.id (List.mem_map_of_mem hk) n.id (by simp)
  have hafter : ∀ k ∈ post, k.id ≠ n.id := fun k hk heq =>
    hpost (heq ▸ List.mem_map_of_mem hk)
  rw [List.append_cons, through_values_append g a f input _ post hafter, through_concat,
    step_values, if_pos rfl, through_values_of_not_mem g a f input hbefore]

end Walk

/-! ## What leaves a block -/

variable [Join S]

namespace Outcome

/-- What goes forward along an edge after a last node with this outcome. -/
def sentForward (last : Outcome V S) (label : EdgeLabel) (target : BlockKind) : Flow S :=
  match label with
  | .onTrue => .single last.flow.onTrue
  | .onFalse => .single last.flow.onFalse
  | .unconditional => if target = .conditional then last.flow else .single last.flow.regular
  | .exception e => .single (last.thrownStore e)

/-- What goes backward along an edge after a last node with this outcome. -/
def sentBackward (last : Outcome V S) (label : EdgeLabel) (source : BlockKind) : Parcel S :=
  match label, source with
  | .onTrue, .conditional => .slot true last.flow.regular
  | .onFalse, .conditional => .slot false last.flow.regular
  | _, _ => .input (.single last.flow.regular)

/-- What goes along a flow edge after a last node with this outcome. -/
def sent (d : Direction) (last : Outcome V S) (label : EdgeLabel) (reached : BlockKind) :
    Parcel S :=
  match d with
  | .forward => .input (last.sentForward label reached)
  | .backward => last.sentBackward label reached

/-- All that a node throws. -/
def allThrown (last : Outcome V S) : Thrown S where
  stores := last.thrown
  fallback := last.flow.regular

@[simp]
theorem storeFor_allThrown (last : Outcome V S) (e : ExceptionType) :
    last.allThrown.storeFor e = last.thrownStore e := by
  cases h : last.thrown.find? fun entry => entry.1 = e <;>
    simp [Thrown.storeFor, thrownStore, allThrown, h]

end Outcome

namespace Crossing

/-- Where an edge for an exception gets what the last node throws, all that is sent is read off the
last node. -/
theorem sent_eq {c : Crossing V S} {d : Direction} {label : EdgeLabel}
    (h : ∀ e, d = .forward → label = .exception e → c.thrown = some c.last.allThrown)
    (kind : BlockKind) : c.sent d label kind = c.last.sent d label kind := by
  cases d with
  | backward => rfl
  | forward =>
    cases label with
    | exception e => simp [sent, sentForward, Outcome.sent, Outcome.sentForward, h e rfl rfl]
    | onTrue | onFalse | unconditional => rfl

variable [DecidableEq V] (g : Graph) (a : Analysis V S) (kind : BlockKind) (f : Findings V S)
  (input : Flow S)

theorem through_concat (ns : List Node) (n : Node) :
    through g a kind f input (ns ++ [n]) = (through g a kind f input ns).step g a kind n := by
  simp [through]

/-- Keeping what is thrown does not disturb the walk. -/
@[simp]
theorem toWalk_through (ns : List Node) :
    (through g a kind f input ns).toWalk = Walk.through g a f input ns := by
  induction ns using List.reverseRecOn with
  | nil => rfl
  | append_singleton ns n ih =>
    rw [through_concat, Walk.through_concat, ← ih]
    rfl

/-- After the last node of an exceptional block, what is kept is what that node throws. -/
theorem thrown_through (ns : List Node) (n : Node) :
    (through g a .exceptional f input (ns ++ [n])).thrown =
      some (through g a .exceptional f input (ns ++ [n])).last.allThrown := by
  rw [through_concat]
  rfl

end Crossing

/-- Along the edges of a well-formed graph goes what is read off the last node. -/
theorem Graph.WellFormed.sent_through [DecidableEq V] {g : Graph} (hg : g.WellFormed)
    (a : Analysis V S) (f : Findings V S) (input : Flow S) {d : Direction} {b : BlockId}
    {block : Block} (hblock : g.block? b = some block) {e : Edge} (he : e ∈ g.edges)
    (htail : d.tail e = b) (kind : BlockKind) :
    (Crossing.through g a block.kind f input (g.passedNodes d b)).sent d e.label kind =
      (Walk.through g a f input (g.passedNodes d b)).last.sent d e.label kind := by
  rw [← Crossing.toWalk_through g a block.kind]
  refine Crossing.sent_eq ?_ kind
  rintro type rfl hlabel
  obtain ⟨hkind, n, hn⟩ := hg.nodesOf_of_exception hblock he htail hlabel
  rw [hkind, passedNodes, hn]
  exact Crossing.thrown_through g a f input [] n

end FlowFixpoint
