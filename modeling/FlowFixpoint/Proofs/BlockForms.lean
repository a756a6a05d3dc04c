/-
# FlowFixpoint.Proofs.BlockForms — the form that each kind of block must have, as a proposition.

The checks of a kind are made one after the other and report the first that fails. `HasForm` says the
same without an order, in the number of nodes and the labels on the edges out of a block. Two things
that the engine relies on follow: edges that depend on an outcome leave conditional blocks only, and
edges for exceptions leave blocks with exactly one node only.
-/
import FlowFixpoint.Graph.Shape
import Mathlib.Data.List.Nodup
import Mathlib.Tactic.Common

namespace FlowFixpoint

namespace Shape

/-- The form of a kind of block, in the number of its nodes and the labels on the edges out of it. -/
def HasForm (kind : BlockKind) (nodes : Nat) (labels : List EdgeLabel) : Prop :=
  match kind with
  | .special .entry => nodes = 0 ∧ (labels = [] ∨ labels = [.unconditional])
  | .special .exit | .special .exceptionalExit => nodes = 0 ∧ labels = []
  | .regular => labels = [] ∨ labels = [.unconditional]
  | .conditional => nodes ≤ 1 ∧ labels.Perm [.onTrue, .onFalse]
  | .exceptional =>
    nodes = 1 ∧ labels.count .unconditional ≤ 1 ∧
      (∀ l ∈ labels, l = .unconditional ∨ ∃ e, l = .exception e) ∧
      ∀ e, labels.count (.exception e) ≤ 1

variable {labels : List EdgeLabel}

theorem isStraight_iff : isStraight labels = true ↔ labels = [] ∨ labels = [.unconditional] := by
  match labels with
  | [] => simp [isStraight]
  | [l] => simp [isStraight]
  | l :: m :: rest => simp [isStraight]

theorem isBranching_iff : isBranching labels = true ↔ labels.Perm [.onTrue, .onFalse] := by
  constructor
  · intro h
    simp only [isBranching, Bool.and_eq_true, decide_eq_true_eq, List.contains_iff_mem] at h
    obtain ⟨⟨hlength, htrue⟩, hfalse⟩ := h
    obtain ⟨x, y, rfl⟩ := List.length_eq_two.mp hlength
    rcases List.mem_pair.mp htrue with rfl | rfl
    · rcases List.mem_pair.mp hfalse with h | rfl
      · cases h
      · exact .refl _
    · rcases List.mem_pair.mp hfalse with rfl | h
      · exact .swap _ _ _
      · cases h
  · intro h
    simp [isBranching, h.length_eq, h.mem_iff]

theorem isThrowing_iff : isThrowing labels = true ↔ labels.count .unconditional ≤ 1 ∧
    ∀ l ∈ labels, l = .unconditional ∨ ∃ e, l = .exception e := by
  have hexception : ∀ l, (exception? l).isSome = true ↔ ∃ e, l = .exception e := by
    intro l
    cases l <;> simp [exception?]
  have hcount : (labels.filter fun l => l = .unconditional).length = labels.count .unconditional := by
    rw [List.count_eq_countP, List.countP_eq_length_filter]
    rfl
  simp [isThrowing, hcount, hexception]

/-- An exception is named as often as there are edges for it. -/
theorem count_filterMap_exception? (e : ExceptionType) :
    (labels.filterMap exception?).count e = labels.count (.exception e) := by
  induction labels with
  | nil => rfl
  | cons l labels ih =>
    cases l with
    | exception e' => simp [exception?, ih, List.count_cons]
    | _ => simpa [List.filterMap_cons, exception?] using ih

theorem repeatsException_eq_false_iff :
    repeatsException labels = false ↔ ∀ e, labels.count (.exception e) ≤ 1 := by
  simp [repeatsException, List.nodup_iff_count_le_one, count_filterMap_exception?]

/-- A check that comes first leaves no fault if it passes and the rest leaves none. -/
theorem check_eq_none_iff {failed : Prop} [Decidable failed] {fault : ShapeFault}
    {rest : Option ShapeFault} :
    (if failed then some fault else rest) = none ↔ ¬ failed ∧ rest = none := by
  split <;> simp_all

/-- The last check leaves no fault if it passes. -/
theorem lastCheck_eq_none_iff {passed : Prop} [Decidable passed] {fault : ShapeFault} :
    (if passed then none else some fault) = none ↔ passed := by
  split <;> simp_all

/-- A block has no fault exactly if it has the form of its kind. -/
theorem fault?_eq_none_iff {kind : BlockKind} {nodes : Nat} :
    fault? kind nodes labels = none ↔ HasForm kind nodes labels := by
  cases kind with
  | regular =>
    show (if isStraight labels = true then none else some _) = none ↔ _
    rw [lastCheck_eq_none_iff, isStraight_iff]
    rfl
  | conditional =>
    show (if 1 < nodes then _ else _) = none ↔ _
    rw [check_eq_none_iff, lastCheck_eq_none_iff, isBranching_iff, Nat.not_lt]
    rfl
  | exceptional =>
    show (if nodes ≠ 1 then _ else _) = none ↔ _
    rw [check_eq_none_iff, check_eq_none_iff, check_eq_none_iff, not_not, Bool.not_eq_true',
      Bool.not_eq_false, isThrowing_iff, Bool.not_eq_true, repeatsException_eq_false_iff]
    simp [HasForm, and_assoc]
  | special kind =>
    cases kind with
    | entry =>
      show (if nodes ≠ 0 then _ else _) = none ↔ _
      rw [check_eq_none_iff, lastCheck_eq_none_iff, not_not, isStraight_iff]
      rfl
    | exit | exceptionalExit =>
      show (if nodes ≠ 0 then _ else _) = none ↔ _
      rw [check_eq_none_iff, lastCheck_eq_none_iff, not_not, List.isEmpty_iff]
      rfl

/-- Special blocks have no nodes. -/
theorem HasForm.nodes_of_special {special : SpecialKind} {nodes : Nat}
    (h : HasForm (.special special) nodes labels) : nodes = 0 := by
  cases special <;> exact h.1

/-- Only conditional blocks have edges that depend on an outcome. -/
theorem HasForm.label_of_not_conditional {kind : BlockKind} {nodes : Nat}
    (h : HasForm kind nodes labels) (hkind : kind ≠ .conditional) {label : EdgeLabel}
    (hlabel : label ∈ labels) : label ≠ .onTrue ∧ label ≠ .onFalse := by
  have hstraight : labels = [] ∨ labels = [.unconditional] →
      label ≠ .onTrue ∧ label ≠ .onFalse := by
    rintro (rfl | rfl)
    · cases hlabel
    · simp [List.mem_singleton.mp hlabel]
  cases kind with
  | conditional => exact absurd rfl hkind
  | regular => exact hstraight h
  | exceptional =>
    obtain ⟨-, -, hall, -⟩ := h
    rcases hall label hlabel with rfl | ⟨e, rfl⟩ <;> simp
  | special kind =>
    cases kind with
    | entry => exact hstraight h.2
    | exit | exceptionalExit => exact hstraight (.inl h.2)

/-- Only exceptional blocks have edges for exceptions, and those have one node. -/
theorem HasForm.of_exception {kind : BlockKind} {nodes : Nat} (h : HasForm kind nodes labels)
    {e : ExceptionType} (he : .exception e ∈ labels) : kind = .exceptional ∧ nodes = 1 := by
  have hstraight : ¬ (labels = [] ∨ labels = [.unconditional]) := by
    rintro (rfl | rfl) <;> simp at he
  cases kind with
  | exceptional => exact ⟨rfl, h.1⟩
  | regular => exact absurd h hstraight
  | conditional => simp [h.2.mem_iff] at he
  | special kind =>
    cases kind with
    | entry => exact absurd h.2 hstraight
    | exit | exceptionalExit => exact absurd (.inl h.2) hstraight

end Shape

end FlowFixpoint
