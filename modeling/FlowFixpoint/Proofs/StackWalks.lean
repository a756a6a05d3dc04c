/-
# FlowFixpoint.Proofs.StackWalks — depth-first walks that keep a stack of their own.

The loop looks at the vertex on top of its stack. If the vertex has not been seen, it is entered and
stays, and its unseen successors are put on top of it, the last one first. If it has been seen, it
is taken off, and it is left unless that has happened before. A vertex may be put on the stack any
number of times before it is first seen, so most turns of the loop may only clear away copies.

The loop leaves the vertices in the order of the recursive walk. What is on top of the stack is
explored before anything below is looked at. A copy that is not new when its turn comes has been
left: it was unseen when it was put there, and whatever has been entered above it since has been
left as well.
-/
import FlowFixpoint.Proofs.DepthFirstOrder

namespace FlowFixpoint.Trail

open Relation (ReflTransGen)

variable {α : Type} [DecidableEq α] {next : α → List α} {all : List α} {t : Trail α} {v : α}
  {stack : List α}

/-- One turn of the loop, with the top of the stack first; none when the stack is empty. -/
def turn (next : α → List α) : List α × Trail α → Option (List α × Trail α)
  | ([], _) => none
  | (v :: stack, t) =>
    if v ∈ t.seen then
      some (stack, if v ∈ t.finished then t else { t with finished := v :: t.finished })
    else
      some ((next v).filter (fun w => w ∉ v :: t.seen) ++ v :: stack,
        { t with seen := v :: t.seen })

/-- The loop gets from one state to another. -/
def Turns (next : α → List α) : List α × Trail α → List α × Trail α → Prop :=
  ReflTransGen fun s s' => turn next s = some s'

theorem explore_of_seen (depth : ℕ) (hseen : v ∈ t.seen) : explore next depth t v = t := by
  cases depth with
  | zero => rfl
  | succ depth => rw [explore, if_pos hseen]

/-- A vertex that has been seen and is not open is cleared away. -/
theorem turn_of_seen (depth : ℕ) (hseen : v ∈ t.seen) (hclosed : ¬ t.Open v) :
    turn next (v :: stack, t) = some (stack, explore next depth t v) := by
  have hfinished : v ∈ t.finished := by
    by_contra hunfinished
    exact hclosed ⟨hseen, hunfinished⟩
  rw [turn, if_pos hseen, if_pos hfinished, explore_of_seen depth hseen]

/-- A vertex that has not been seen is entered. -/
theorem turn_of_unseen (hfresh : v ∉ t.seen) : turn next (v :: stack, t) =
    some ((next v).filter (fun w => w ∉ v :: t.seen) ++ v :: stack,
      { t with seen := v :: t.seen }) := by
  rw [turn, if_neg hfresh]

/-- A vertex that is open is left. -/
theorem turn_of_open (h : t.Open v) :
    turn next (v :: stack, t) = some (stack, { t with finished := v :: t.finished }) := by
  rw [turn, if_pos h.1, if_neg h.2]

/-- It makes no difference whether vertices that have been seen are explored. -/
theorem foldl_explore_filter (hall : ∀ x ∈ all, ∀ y ∈ next x, y ∈ all) {depth : ℕ}
    (seen ws : List α) (hws : ∀ w ∈ ws, w ∈ all) (t : Trail α)
    (hdepth : (unseen all t).length ≤ depth) (hseen : ∀ x ∈ seen, x ∈ t.seen) :
    (ws.filter fun w => w ∉ seen).foldl (explore next depth) t =
      ws.foldl (explore next depth) t := by
  induction ws generalizing t with
  | nil => rfl
  | cons w ws ih =>
    obtain ⟨hw, hws⟩ := List.forall_mem_cons.mp hws
    by_cases hold : w ∈ seen
    · rw [List.filter_cons_of_neg (by simpa using hold), List.foldl_cons,
        explore_of_seen depth (hseen w hold)]
      exact ih hws t hdepth hseen
    · rw [List.filter_cons_of_pos (by simpa using hold), List.foldl_cons, List.foldl_cons]
      obtain ⟨hext, -⟩ := extends_explore hall depth t w hw hdepth
      exact ih hws _ (Nat.le_trans (unseen_length_le hext.seen) hdepth)
        fun x hx => hext.seen x (hseen x hx)

/-- The loop works off several vertices on top of the stack, given how it works off one. -/
theorem turns_foldl (hall : ∀ x ∈ all, ∀ y ∈ next x, y ∈ all) {depth : ℕ}
    (h : ∀ (t : Trail α) (v : α) (stack : List α), v ∈ all → (unseen all t).length ≤ depth →
      Ordered next t → (∀ x, t.Open x → Leads next x v) → ¬ t.Open v →
        Turns next (v :: stack, t) (stack, explore next depth t v))
    (vs : List α) (hvs : ∀ v ∈ vs, v ∈ all) (t : Trail α) (stack : List α)
    (hdepth : (unseen all t).length ≤ depth) (ht : Ordered next t)
    (hopen : ∀ x, t.Open x → ∀ v ∈ vs, Leads next x v) (hclosed : ∀ v ∈ vs, ¬ t.Open v) :
    Turns next (vs ++ stack, t) (stack, vs.foldl (explore next depth) t) := by
  induction vs generalizing t with
  | nil => exact .refl
  | cons v vs ih =>
    obtain ⟨hv, hvs⟩ := List.forall_mem_cons.mp hvs
    obtain ⟨hvclosed, hclosed⟩ := List.forall_mem_cons.mp hclosed
    have hleads : ∀ x, t.Open x → Leads next x v := fun x hx => hopen x hx v List.mem_cons_self
    obtain ⟨hext, -⟩ := extends_explore hall depth t v hv hdepth
    obtain ⟨hordered, -⟩ := ordered_explore hall depth t v hv hdepth ht hleads
    have hrest := ih hvs (explore next depth t v)
      (Nat.le_trans (unseen_length_le hext.seen) hdepth) hordered
      (fun x hx w hw => hopen x (hext.open_of_open hx) w (List.mem_cons_of_mem v hw))
      (fun w hw hopen' => hclosed w hw (hext.open_of_open hopen'))
    exact (h t v (vs ++ stack) hv hdepth ht hleads hvclosed).trans hrest

/-- The loop works off a vertex that is not open as the recursive walk explores it. -/
theorem turns_explore (hall : ∀ x ∈ all, ∀ y ∈ next x, y ∈ all) (depth : ℕ) (t : Trail α) (v : α)
    (stack : List α) (hv : v ∈ all) (hdepth : (unseen all t).length ≤ depth)
    (ht : Ordered next t) (hopen : ∀ x, t.Open x → Leads next x v) (hclosed : ¬ t.Open v) :
    Turns next (v :: stack, t) (stack, explore next depth t v) := by
  induction depth generalizing t v stack with
  | zero =>
    have hseen : v ∈ t.seen := (extends_explore hall 0 t v hv hdepth).2
    exact .single (turn_of_seen 0 hseen hclosed)
  | succ depth ih =>
    by_cases hseen : v ∈ t.seen
    · exact .single (turn_of_seen (depth + 1) hseen hclosed)
    · have hlt := unseen_length_lt hv hseen
      have hopen' := leads_of_open_enter hopen
      have hordered := ht.enter v
      have hfiltered : ∀ w ∈ (next v).filter (fun w => w ∉ v :: t.seen),
          w ∈ next v ∧ w ∉ v :: t.seen := by
        intro w hw
        simpa using hw
      -- the successors on top are worked off first
      have hbelow := turns_foldl hall ih _ (fun w hw => hall v hv w (hfiltered w hw).1)
        { t with seen := v :: t.seen } (v :: stack) (by omega) hordered
        (fun x hx w hw => (hopen' x hx).tail (hfiltered w hw).1)
        (fun w hw hw' => (hfiltered w hw).2 hw'.1)
      rw [foldl_explore_filter hall _ (next v) (hall v hv) _ (by omega) fun _ hx => hx] at hbelow
      -- and then `v` is still open
      obtain ⟨hext, -⟩ := extends_foldl (extends_explore hall depth) (next v) (hall v hv)
        { t with seen := v :: t.seen } (by omega)
      obtain ⟨-, henters⟩ := ordered_foldl hall (ordered_explore hall depth) (next v) (hall v hv)
        { t with seen := v :: t.seen } (by omega) hordered fun x hx w hw => (hopen' x hx).tail hw
      have hself := henters.open_of_open (ht.open_enter hseen) hext
      rw [explore, if_neg hseen]
      exact .head (turn_of_unseen hseen) (hbelow.tail (turn_of_open hself))

/-- The loop ends with its stack empty, and leaves the vertices in the order of the recursive
walk. -/
theorem turns_ofRoots {roots : List α} (hall : ∀ x ∈ all, ∀ y ∈ next x, y ∈ all)
    (hroots : ∀ v ∈ roots, v ∈ all) {depth : ℕ} (hdepth : all.length ≤ depth) :
    Turns next (roots, {}) ([], ofRoots next depth roots) := by
  have hturns := turns_foldl hall (turns_explore hall depth) roots hroots {} []
    (Nat.le_trans (List.length_filter_le _ _) hdepth) ⟨by simp, List.nodup_nil, by simp⟩
    (fun x hx => absurd hx.1 List.not_mem_nil) (fun v _ hv => List.not_mem_nil hv.1)
  rwa [List.append_nil] at hturns

end FlowFixpoint.Trail
