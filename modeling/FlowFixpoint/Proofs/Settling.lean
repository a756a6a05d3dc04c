/-
# FlowFixpoint.Proofs.Settling — what stops changing in an endless run.

Forward, and where merges are joins, an input only climbs. A run binds none but the locals of its
graph, so that the stores it can meet have a bounded height, and every climb raises the height: in
an endless run the inputs stop changing without any help from widening.

Values are overwritten, not joined, and need an argument of their own. It is enough to see of each
node that it settles, and a node settles as soon as any two late visits of its block record the same
value for it. If all of them settle, the run was not endless.
-/
import FlowFixpoint.Proofs.Arrivals
import FlowFixpoint.Proofs.StaleReads
import FlowFixpoint.Proofs.Termination
import Mathlib.Algebra.Order.BigOperators.Group.List
import Mathlib.Algebra.Order.Group.Nat

namespace FlowFixpoint

open Filter
open Std (TransOrd LawfulEqOrd)

variable {V S : Type}

/-! ## Heights -/

/-- A measure of the elements with a property that is bounded and rises with every climb. -/
structure Height (α : Type) [Join α] (P : α → Prop) where
  measure : α → ℕ
  top : ℕ
  le_top : ∀ x, P x → measure x ≤ top
  rises : ∀ x y, P y → Below x y → x ≠ y → measure x < measure y

theorem Height.mono {α : Type} [Join α] {P : α → Prop} (h : Height α P) {x y : α} (hy : P y)
    (hbelow : Below x y) : h.measure x ≤ h.measure y := by
  by_cases hxy : x = y
  · rw [hxy]
  · exact (h.rises x y hy hbelow hxy).le

/-- From least to known to greatest. -/
def Flat.height {α : Type} [DecidableEq α] : Height (Flat α) fun _ => True where
  measure
    | bottom => 0
    | known _ => 1
    | top => 2
  top := 2
  le_top x _ := by cases x <;> simp
  rises x y _ hbelow hne := by
    unfold Below at hbelow
    cases x <;> cases y <;> simp_all [join, lub, eq_comm]

/-- From knowing to not knowing. -/
def Nullness.height : Height Nullness fun _ => True where
  measure
    | null | nonNull => 0
    | maybeNull => 1
  top := 1
  le_top x _ := by cases x <;> simp
  rises x y _ hbelow hne := by
    unfold Below at hbelow
    cases x <;> cases y <;> simp_all [join, lub]

section Env

variable {κ β : Type} [Ord κ] [TransOrd κ]

/-- The environment binds none but these keys. -/
def Env.Within (keys : List κ) (e : Env κ β) : Prop := ∀ k, (e.get? k).isSome → k ∈ keys

variable [LawfulEqOrd κ] [Join β]

/-- The height of an environment adds up its bindings; a binding to a least value counts too. -/
def Height.env (h : Height β fun _ => True) (keys : List κ) :
    Height (Env κ β) (Env.Within keys) where
  measure e := (keys.map fun k => (e.get? k).elim 0 fun v => h.measure v + 1).sum
  top := (keys.map fun _ => h.top + 1).sum
  le_top e _ := by
    refine List.sum_le_sum fun k _ => ?_
    cases e.get? k with
    | none => exact Nat.zero_le _
    | some v => exact Nat.succ_le_succ (h.le_top v trivial)
  rises a b hb hbelow hne := by
    rw [Env.below_iff] at hbelow
    have hle : ∀ k, (a.get? k).elim 0 (fun v => h.measure v + 1) ≤
        (b.get? k).elim 0 fun v => h.measure v + 1 := by
      intro k
      cases hk : a.get? k with
      | none => exact Nat.zero_le _
      | some v =>
        obtain ⟨u, hu, hvu⟩ := hbelow k v hk
        rw [hu]
        exact Nat.succ_le_succ (h.mono trivial hvu)
    -- the two differ at some key, and `b` binds it
    obtain ⟨k, hk⟩ : ∃ k, a.get? k ≠ b.get? k := by
      by_contra hall
      push Not at hall
      exact hne (Env.ext_get? hall)
    refine List.sum_lt_sum _ _ (fun k _ => hle k) ⟨k, ?_, ?_⟩
    · apply hb k
      cases ha : a.get? k with
      | none => exact Option.isSome_iff_ne_none.mpr (ha ▸ hk).symm
      | some v =>
        obtain ⟨u, hu, -⟩ := hbelow k v ha
        simp [hu]
    · cases ha : a.get? k with
      | none =>
        obtain ⟨u, hu⟩ := Option.ne_none_iff_exists'.mp (ha ▸ hk).symm
        rw [hu]
        exact Nat.succ_pos _
      | some v =>
        obtain ⟨u, hu, hvu⟩ := hbelow k v ha
        rw [hu]
        exact Nat.succ_lt_succ (h.rises v u trivial hvu fun hvu => hk (by rw [ha, hu, hvu]))

end Env

/-- Both sides of the flow have the property. -/
def Flow.All (P : S → Prop) (φ : Flow S) : Prop := ∀ outcome, P (φ.side outcome)

/-- The height of a flow adds up its sides; being split counts as well. -/
def Height.flow [Store S] {P : S → Prop} (h : Height S P) : Height (Flow S) (Flow.All P) where
  measure φ := φ.isSplit.toNat + h.measure (φ.side true) + h.measure (φ.side false)
  top := 1 + h.top + h.top
  le_top φ hφ := by
    have htrue := h.le_top _ (hφ true)
    have hfalse := h.le_top _ (hφ false)
    have hsplit := φ.isSplit.toNat_le
    omega
  rises φ ψ hψ hbelow hne := by
    obtain ⟨hsplit, hside⟩ := Flow.below_iff.mp hbelow
    have hsplit' : φ.isSplit.toNat ≤ ψ.isSplit.toNat := by
      cases hφ : φ.isSplit with
      | false => exact Nat.zero_le _
      | true => rw [hsplit hφ]
    have htrue := h.mono (hψ true) (hside true)
    have hfalse := h.mono (hψ false) (hside false)
    by_contra hle
    apply hne
    -- if the sum does not rise, no part of it does, and the two flows have the same parts
    have hsame : ∀ outcome, φ.side outcome = ψ.side outcome := by
      intro outcome
      by_contra hdiffer
      have hlt := h.rises _ _ (hψ outcome) (hside outcome) hdiffer
      cases outcome <;> omega
    refine Flow.ext_side ?_ hsame
    have heq : φ.isSplit.toNat = ψ.isSplit.toNat := by omega
    cases hφ : φ.isSplit <;> cases hψ : ψ.isSplit <;> simp_all

/-! ## What flows through a graph -/

/-- All stores of the outcome have the property. -/
structure Outcome.All (P : S → Prop) (o : Outcome V S) : Prop where
  flow : o.flow.All P
  thrown : ∀ entry ∈ o.thrown, P entry.2

section All

variable {P : S → Prop} {φ : Flow S} {x y : S}

theorem Flow.all_single (hx : P x) : (Flow.single x).All P := fun outcome => by
  rwa [side_single]

theorem Flow.all_split (hx : P x) (hy : P y) : (Flow.split x y).All P
  | true => hx
  | false => hy

theorem Flow.All.regular [Join S] (hjoins : ∀ x y, P x → P y → P (join x y)) (hφ : φ.All P) :
    P φ.regular := by
  cases φ with
  | single x => exact hφ true
  | split t f => exact hjoins t f (hφ true) (hφ false)

theorem Outcome.all_of_flow {value : Option V} {finals : List (LocalVar × V)} (hφ : φ.All P) :
    ({ value, flow := φ, finals } : Outcome V S).All P :=
  ⟨hφ, fun _ hentry => by cases hentry⟩

end All

/-- Nothing but stores with the property flows through the graph. -/
structure Analysis.Keeps [Join S] (a : Analysis V S) (g : Graph) (P : S → Prop) : Prop where
  seeds : ∀ b store, (b, store) ∈ a.seedsOf g → P store
  joins : ∀ x y, P x → P y → P (join x y)
  transfer : ∀ (scene : Scene V) (n : Node) (φ : Flow S), scene.graph = g →
    g.node? n.id = some n → φ.All P → (a.transfer scene n φ).All P

namespace Analysis.Keeps

variable [Store S] {a : Analysis V S} {g : Graph} {P : S → Prop} (h : a.Keeps g P)

include h

theorem sentForward {o : Outcome V S} (ho : o.All P) (label : EdgeLabel) (kind : BlockKind) :
    (o.sentForward label kind).All P := by
  have hregular : P o.flow.regular := ho.flow.regular h.joins
  unfold Outcome.sentForward
  cases label with
  | onTrue => exact Flow.all_single (ho.flow true)
  | onFalse => exact Flow.all_single (ho.flow false)
  | unconditional =>
    show (if kind = .conditional then o.flow else .single o.flow.regular).All P
    split
    · exact ho.flow
    · exact Flow.all_single hregular
  | exception e =>
    apply Flow.all_single
    unfold Outcome.thrownStore
    cases hfind : o.thrown.find? fun entry => entry.1 = e with
    | none => exact hregular
    | some entry => exact ho.thrown entry (List.mem_of_find?_eq_some hfind)

theorem foldl_joinOnto {acc : Option (Flow S)} {φs : List (Flow S)} (hacc : ∀ φ ∈ acc, φ.All P)
    (hφs : ∀ φ ∈ φs, φ.All P) : ∀ φ ∈ φs.foldl joinOnto acc, φ.All P := by
  induction φs generalizing acc with
  | nil => exact hacc
  | cons ψ φs ih =>
    rw [List.forall_mem_cons] at hφs
    refine ih ?_ hφs.2
    cases acc with
    | none => simpa [joinOnto] using hφs.1
    | some old =>
      rintro φ ⟨⟩ outcome
      rw [Flow.side_join]
      exact h.joins _ _ (hacc old rfl outcome) (hφs.1 outcome)

/-- A walk keeps the property. -/
theorem through [DecidableEq V] (f : Findings V S) {input : Flow S} (hinput : input.All P)
    {ns : List Node} (hns : ∀ n ∈ ns, g.node? n.id = some n) :
    (Walk.through g a f input ns).last.All P := by
  induction ns using List.reverseRecOn with
  | nil => exact Outcome.all_of_flow hinput
  | append_singleton ns n ih =>
    rw [Walk.through_concat, Walk.step_last]
    exact h.transfer _ n _ rfl (hns n (by simp)) (ih fun k hk => hns k (by simp [hk])).flow

end Analysis.Keeps

namespace Setup

variable [Store S] [DecidableEq S] [DecidableEq V] [LawfulJoin S] [PlainWidening S]
  {s : Setup V S} {start p p' : Pass V S} {b c : BlockId} {P : S → Prop}
  (hforward : s.analysis.direction = .forward)

include hforward

/-- A step keeps the property of all inputs. -/
theorem Step.all_inputs (hkeeps : s.analysis.Keeps s.graph P) (hg : s.graph.WellFormed)
    (ho : s.Orderly p) (h : s.Step b p p') (hp : ∀ c φ, p.input? c = some φ → φ.All P) :
    ∀ c φ, p'.input? c = some φ → φ.All P := by
  intro c φ hφ
  rw [h.input?_eq hforward hg ho] at hφ
  refine hkeeps.foldl_joinOnto (hp c) ?_ φ hφ
  intro ψ hψ
  obtain ⟨e, he, hsent⟩ := List.mem_filterMap.mp hψ
  obtain ⟨input, hinput, hleaving⟩ := Option.bind_eq_some_iff.mp hsent
  obtain ⟨block, -, rfl⟩ := Option.map_eq_some_iff.mp hleaving
  refine hkeeps.sentForward (hkeeps.through _ (hp _ _ hinput) ?_) _ _
  intro n hn
  exact (hg.block_of_mem_nodesOf (Graph.mem_passedNodes.mp hn)).2

/-- In every state of a run all inputs have the property. -/
theorem Starts.all_inputs (hkeeps : s.analysis.Keeps s.graph P) (hs : s.Starts start)
    (h : s.Reached start p) : ∀ c φ, p.input? c = some φ → φ.All P := by
  induction h with
  | refl =>
    intro c φ hφ outcome
    obtain ⟨store, hseed, rfl⟩ := (hs.started.input c φ).mp hφ
    rw [Flow.side_single]
    exact hkeeps.seeds c store hseed
  | tail hbefore hstep ih =>
    obtain ⟨b, hstep⟩ := hstep
    exact hstep.all_inputs hforward hkeeps hs.wellFormed (hs.orderly_of_reached hbefore) ih

/-- A step only raises inputs. -/
theorem Step.climbs (hg : s.graph.WellFormed) (ho : s.Orderly p) (h : s.Step b p p') {φ : Flow S}
    (hφ : p.input? c = some φ) : ∃ ψ, p'.input? c = some ψ ∧ Below φ ψ := by
  have hfold := h.input?_eq hforward hg ho c
  have hsome : (p'.input? c).isSome := by
    rw [hfold, isSome_foldl_joinOnto, hφ]
    exact .inl rfl
  obtain ⟨ψ, hψ⟩ := Option.isSome_iff_exists.mp hsome
  refine ⟨ψ, hψ, ?_⟩
  have hleast : (∀ χ ∈ (s.sentTo c (b, p)).foldl joinOnto (p.input? c), Below χ ψ) ↔ _ :=
    foldl_joinOnto_below_iff
  rw [← hfold, hψ, hφ] at hleast
  apply (hleast.mp ?_).1 φ rfl
  rintro χ ⟨⟩
  exact Below.refl ψ

/-- What a visit has found recorded is at or below what is recorded later. -/
theorem History.climbs (hs : s.Starts start) {visits : List (BlockId × Pass V S)}
    (h : s.History start visits p) {q : Pass V S} (hq : (b, q) ∈ visits) {φ : Flow S}
    (hφ : q.input? c = some φ) : ∃ ψ, p.input? c = some ψ ∧ Below φ ψ := by
  induction h with
  | nil => cases hq
  | concat hbefore hstep ih =>
    have ho := hs.orderly_of_reached hbefore.reached
    rcases List.mem_append.mp hq with hq | hq
    · obtain ⟨ψ, hψ, hbelow⟩ := ih hq
      obtain ⟨χ, hχ, hclimbs⟩ := hstep.climbs hforward hs.wellFormed ho hψ
      exact ⟨χ, hχ, hbelow.trans hclimbs⟩
    · obtain ⟨rfl, rfl⟩ := Prod.mk.inj (List.mem_singleton.mp hq)
      exact hstep.climbs hforward hs.wellFormed ho hφ

/-- An input that a step leaves as it was has not been recorded anew. -/
theorem Step.quiet_of_input?_eq (hg : s.graph.WellFormed) (ho : s.Orderly p) (h : s.Step b p p')
    (hsame : p'.input? c = p.input? c) : p'.changes c = p.changes c := by
  obtain ⟨input, hstep⟩ := h.stepped hg ho
  refine h.quiet_of_absorbed hg ho hstep.arrived (.inr inferInstance) ?_
  rintro ⟨c, parcel⟩ he rfl
  have habsorbed := h.absorbed hg ho hstep.arrived he (.inr inferInstance)
  obtain ⟨edge, -, -, block, -, heq⟩ := (mem_parcelsOf hg).mp he
  rw [hforward] at heq
  obtain ⟨-, rfl⟩ := Prod.mk.inj heq
  obtain ⟨arrived, harrived, hbelow⟩ := habsorbed
  exact ⟨arrived, hsame ▸ harrived, hbelow⟩

/-- Where stores have a bounded height, every input stops changing. -/
theorem Endless.calmsDown_of_height {f : ℕ → Pass V S} {v : ℕ → BlockId} (h : s.Endless f v)
    (height : Height S P) (hkeeps : s.analysis.Keeps s.graph P) (c : BlockId) : CalmsDown f c := by
  have hg := h.starts.wellFormed
  let gauge : ℕ → ℕ := fun i => ((f i).input? c).elim 0 fun φ => height.flow.measure φ + 1
  have htop : ∀ i, gauge i ≤ height.flow.top + 1 := by
    intro i
    cases hφ : (f i).input? c with
    | none => simp [gauge, hφ]
    | some φ =>
      have hle := height.flow.le_top φ (h.starts.all_inputs hforward hkeeps (h.reached i) c φ hφ)
      simpa [gauge, hφ] using hle
  have hrises : ∀ i, (f (i + 1)).input? c ≠ (f i).input? c → gauge i < gauge (i + 1) := by
    intro i hne
    cases hφ : (f i).input? c with
    | none =>
      obtain ⟨ψ, hψ⟩ := Option.ne_none_iff_exists'.mp (hφ ▸ hne)
      simp [gauge, hφ, hψ]
    | some φ =>
      obtain ⟨ψ, hψ, hbelow⟩ := (h.step i).climbs hforward hg (h.orderly i) hφ
      have hall := h.starts.all_inputs hforward hkeeps (h.reached (i + 1)) c ψ hψ
      have hlt := height.flow.rises φ ψ hall hbelow fun heq => hne (by rw [hφ, hψ, heq])
      simpa [gauge, hφ, hψ] using hlt
  -- what is left of the height falls whenever the input changes
  refine eventually_of_falls (r := (· < ·)) wellFounded_lt
    (x := fun i => height.flow.top + 1 - gauge i) ?_
  intro i
  by_cases hsame : (f (i + 1)).input? c = (f i).input? c
  · refine .inl ⟨(h.step i).quiet_of_input?_eq hforward hg (h.orderly i) hsame, ?_⟩
    simp only [gauge, hsame]
  · have hlt := hrises i hsame
    have hle := htop (i + 1)
    show _ ∨ height.flow.top + 1 - gauge (i + 1) < height.flow.top + 1 - gauge i
    omega

/-! ## Values that settle -/

/-- From some visit on the node keeps its value. -/
def Settles (f : ℕ → Pass V S) (m : NodeId) : Prop :=
  ∃ x, ∀ᶠ i in atTop, (f i).findings.values[m]? = x

omit hforward [Store S] [DecidableEq S] [DecidableEq V] [LawfulJoin S] [PlainWidening S] in
/-- What is settled of each of some nodes is settled of all of them at once. -/
theorem exists_settled {f : ℕ → Pass V S} {ms : List NodeId} (h : ∀ m ∈ ms, Settles f m) :
    ∃ N, ∀ i j, N ≤ i → N ≤ j → ∀ m ∈ ms,
      (f i).findings.values[m]? = (f j).findings.values[m]? := by
  choose! x hx using h
  obtain ⟨N, hN⟩ := eventually_atTop.mp
    ((eventually_all_finite (List.finite_toSet ms)).mpr hx)
  refine ⟨N, fun i j hi hj m hm => ?_⟩
  rw [hN i hi m hm, hN j hj m hm]

namespace Endless

variable {f : ℕ → Pass V S} {v : ℕ → BlockId} (h : s.Endless f v)

omit hforward [LawfulJoin S] [PlainWidening S]

include h

/-- A visit of another block leaves the value of a node as it is. -/
theorem value_of_ne {n : Node} (hn : n ∈ s.graph.nodesOf b) {i : ℕ} (hne : v i ≠ b) :
    (f (i + 1)).findings.values[n.id]? = (f i).findings.values[n.id]? := by
  obtain ⟨input, hstep⟩ := h.stepped i
  rw [hstep.values, walkOf_values_of_ne _ _ h.starts.wellFormed hn hne.symm]

/-- A node settles if all visits of its block from some point on record the same value for it. -/
theorem settles_of_visits {n : Node} (hn : n ∈ s.graph.nodesOf b) {N : ℕ}
    (hsame : ∀ i j, N ≤ i → N ≤ j → v i = b → v j = b →
      (f (i + 1)).findings.values[n.id]? = (f (j + 1)).findings.values[n.id]?) :
    Settles f n.id := by
  by_cases hvisit : ∃ j, N ≤ j ∧ v j = b
  · obtain ⟨j, hj, hvj⟩ := hvisit
    refine ⟨(f (j + 1)).findings.values[n.id]?, eventually_atTop.mpr ⟨j + 1, ?_⟩⟩
    intro i hi
    induction i, hi using Nat.le_induction with
    | base => rfl
    | succ i hi ih =>
      by_cases hvi : v i = b
      · exact hsame i j (by omega) hj hvi hvj
      · rw [h.value_of_ne hn hvi, ih]
  · refine ⟨(f N).findings.values[n.id]?, eventually_atTop.mpr ⟨N, ?_⟩⟩
    intro i hi
    induction i, hi using Nat.le_induction with
    | base => rfl
    | succ i hi ih => rw [h.value_of_ne hn fun hvi => hvisit ⟨i, hi, hvi⟩, ih]

/-- Once the inputs have stopped changing, it settles if all late walks up to it yield the same. -/
theorem settles_of_walks (hforward : s.analysis.direction = .forward)
    {reads : NodeKind → List NodeId} (ha : s.analysis.ReadsOnly reads)
    (hcalm : AllCalm f) {pre post : List Node} {n : Node}
    (hsplit : s.graph.nodesOf b = pre ++ n :: post) {N : ℕ}
    (hsame : ∀ i j input, N ≤ i → N ≤ j → s.Stepped b (f i) (f (i + 1)) input →
      s.Stepped b (f j) (f (j + 1)) input →
        (Walk.through s.graph s.analysis (f i).findings input (pre ++ [n])).last.value =
          (Walk.through s.graph s.analysis (f j).findings input (pre ++ [n])).last.value) :
    Settles f n.id := by
  obtain ⟨M, hM⟩ := eventually_atTop.mp hcalm
  refine h.settles_of_visits (N := max M N) (b := b) (by simp [hsplit]) ?_
  rintro i j hi hj rfl hvj
  obtain ⟨input, hstepi⟩ := h.stepped i
  obtain ⟨input', hstepj⟩ := h.stepped j
  rw [hvj] at hstepj
  obtain rfl : input = input' := by
    have hinput : (f i).input? (v i) = (f j).input? (v i) :=
      h.input?_eq (fun k hk => hM k hk (v i)) (by omega) (by omega)
    rw [hstepi.arrived, hstepj.arrived] at hinput
    exact Option.some.inj hinput
  rw [hstepi.values, hstepj.values, walkOf_value h.starts hforward ha (h.reached i) hsplit,
    walkOf_value h.starts hforward ha (h.reached j) hsplit]
  exact hsame i j input (by omega) (by omega) hstepi hstepj

/-- A node that no block lists never gets a value; so only listed nodes have to be looked at. -/
theorem settles_of_listed {m : NodeId} (hm : ∀ b pre n post,
    s.graph.nodesOf b = pre ++ n :: post → n.id = m → Settles f m) : Settles f m := by
  by_cases hlisted : ∃ b, ∃ n ∈ s.graph.nodesOf b, n.id = m
  · obtain ⟨b, n, hn, hid⟩ := hlisted
    obtain ⟨pre, post, hsplit⟩ := List.append_of_mem hn
    exact hm b pre n post hsplit hid
  · refine ⟨none, .of_forall fun i => ?_⟩
    induction i with
    | zero => simp [h.starts.started.values]
    | succ i ih =>
      obtain ⟨input, hstep⟩ := h.stepped i
      rw [hstep.values, ← ih]
      refine Walk.through_values_of_not_mem _ _ _ _ fun n hn hid => hlisted ⟨v i, n, ?_, hid⟩
      exact Graph.mem_passedNodes.mp hn

/-- If all nodes settle, from some visit on no value changes. -/
theorem unchanged_of_settles (hsettles : ∀ m, Settles f m) :
    ∀ᶠ i in atTop, ∀ input, (f i).input? (v i) = some input →
      (s.walkOf (v i) (f i) input).changed = false := by
  have hall : ∀ᶠ i in atTop, ∀ b ∈ {b | b ∈ s.graph.blocks.toList.map Block.id},
      ∀ n ∈ {n | n ∈ s.graph.nodesOf b},
        (f (i + 1)).findings.values[n.id]? = (f i).findings.values[n.id]? := by
    rw [eventually_all_finite (List.finite_toSet _)]
    intro b _
    rw [eventually_all_finite (List.finite_toSet _)]
    intro n _
    obtain ⟨x, hx⟩ := hsettles n.id
    filter_upwards [hx, (tendsto_add_atTop_nat 1).eventually hx] with i hi hnext
    rw [hi, hnext]
  filter_upwards [hall] with i hi input hinput
  obtain ⟨input', hstep⟩ := h.stepped i
  obtain rfl : input = input' := by simpa [hinput] using hstep.arrived
  rw [changed_walkOf h.starts.wellFormed]
  apply Std.ExtTreeMap.ext_getElem?
  intro m
  by_cases hm : ∃ n ∈ s.graph.nodesOf (v i), n.id = m
  · obtain ⟨n, hn, rfl⟩ := hm
    rw [← hstep.values]
    exact hi (v i) (h.mem_blocks i) n hn
  · refine Walk.through_values_of_not_mem _ _ _ _ fun n hn hid => hm ⟨n, ?_, hid⟩
    exact Graph.mem_passedNodes.mp hn

end Endless

end Setup

/-! ## Runs that end without widening -/

namespace Analysis

variable [Store S] [DecidableEq S] [DecidableEq V] [LawfulJoin S] [PlainWidening S]
  {a : Analysis V S} {g : Graph} {P : S → Prop}

/-- Where there is no endless run, one number of visits is enough for all settings. -/
theorem exists_enough_of_not_endless (hg : g.WellFormed)
    (hends : ∀ (s : Setup V S) f v, s.graph = g → s.analysis = a → ¬ s.Endless f v) :
    ∃ enough, ∀ settings : Settings, enough ≤ settings.maxVisits →
      ∃ p, a.solve settings g = .ok p := by
  obtain ⟨start, hprepare⟩ := a.exists_prepare hg
  let unlimited : Settings := ⟨0, 0, false⟩
  obtain ⟨hs, -⟩ := starts_of_prepare hg (hprepare unlimited)
  obtain ⟨enough, henough⟩ := Setup.exists_enough_of_not_endless hs fun f v => hends _ f v rfl rfl
  refine ⟨enough, ?_⟩
  rintro ⟨threshold, limit, check⟩ hlimit
  -- threshold and check do not matter
  have hsame : a.solve ⟨threshold, limit, check⟩ g =
      (Setup.withLimit ⟨g, a, unlimited, g.pointsOf a.direction⟩ limit).run limit start := by
    rw [← (a.inert g).same ⟨threshold, limit, check⟩ 0 false, solve, hprepare]
    rfl
  rw [hsame]
  cases hresult : (Setup.withLimit ⟨g, a, unlimited, g.pointsOf a.direction⟩ limit).run limit
      start with
  | ok p => exact ⟨p, rfl⟩
  | error failure =>
    obtain ⟨hs', -⟩ := starts_of_prepare hg (hprepare { unlimited with maxVisits := limit })
    exact absurd (Setup.outOfVisits_of_run hs' rfl .refl hresult)
      (henough limit limit hlimit failure hresult)

/-- A forward analysis with stores of bounded height ends on a graph if its values settle once the
inputs have. -/
theorem exists_enough_of_settles (hforward : a.direction = .forward) (height : Height S P)
    (hg : g.WellFormed) (hkeeps : a.Keeps g P)
    (hsettles : ∀ (s : Setup V S) f v, s.graph = g → s.analysis = a → s.Endless f v →
      Setup.AllCalm f → ∀ m, Setup.Settles f m) :
    ∃ enough, ∀ settings : Settings, enough ≤ settings.maxVisits →
      ∃ p, a.solve settings g = .ok p := by
  refine exists_enough_of_not_endless hg ?_
  rintro s f v rfl rfl h
  have hcalm := h.calm_everywhere (h.calmsDown_of_height hforward height hkeeps)
  exact h.not_at_rest hcalm (h.unchanged_of_settles (hsettles s f v rfl rfl h hcalm))

end Analysis

/-! ## The locals of a graph -/

/-- The local that a node reads or writes. -/
def NodeKind.local? : NodeKind → Option LocalVar
  | .localRead x | .assignment x _ => some x
  | _ => none

namespace Graph

/-- The parameters and the locals that nodes read or write. -/
def locals (g : Graph) : List LocalVar :=
  g.code.parameters ++ g.nodes.toList.filterMap fun n => n.kind.local?

variable {g : Graph} {x : LocalVar}

theorem mem_locals_of_node {m : NodeId} {n : Node} (hn : g.node? m = some n)
    (hx : n.kind.local? = some x) : x ∈ g.locals := by
  refine List.mem_append_right _ (List.mem_filterMap.mpr ⟨n, ?_, hx⟩)
  exact Array.mem_toList_iff.mpr (Array.mem_of_getElem? (node?_eq_some_iff.mp hn).2)

theorem mem_locals_of_localRead? {m : NodeId} (h : g.localRead? m = some x) : x ∈ g.locals := by
  unfold localRead? at h
  cases hn : g.node? m with
  | none => simp [hn] at h
  | some n =>
    refine mem_locals_of_node hn ?_
    cases hkind : n.kind <;> simp_all [NodeKind.local?]

end Graph

namespace Env

variable {β : Type} {xs : List LocalVar}

theorem Within.set {e : Env LocalVar β} (he : e.Within xs) {x : LocalVar} (hx : x ∈ xs) (v : β) :
    (e.set x v).Within xs := by
  intro y hy
  rw [get?_set] at hy
  split at hy
  · next hxy => exact hxy ▸ hx
  · exact he y hy

theorem Within.join [Join β] {d e : Env LocalVar β} (hd : d.Within xs) (he : e.Within xs) :
    (join d e).Within xs := by
  intro y hy
  rw [get?_join] at hy
  cases hdy : d.get? y with
  | some u => exact hd y (by simp [hdy])
  | none => exact he y (by simpa [hdy] using hy)

theorem within_ofList {pairs : List (LocalVar × β)} (h : ∀ e ∈ pairs, e.1 ∈ xs) :
    (ofList pairs).Within xs := by
  have hfold : ∀ (pairs : List (LocalVar × β)) (e : Env LocalVar β), (∀ e ∈ pairs, e.1 ∈ xs) →
      e.Within xs → (pairs.foldl (fun e p => e.set p.1 p.2) e).Within xs := by
    intro pairs
    induction pairs with
    | nil => exact fun e _ he => he
    | cons p pairs ih =>
      intro e h he
      rw [List.forall_mem_cons] at h
      exact ih _ h.2 (he.set h.1 p.2)
  refine hfold pairs empty h ?_
  intro y hy
  simp at hy

/-- A store that binds the parameters keeps to the locals of the graph. -/
theorem within_parameters (g : Graph) (v : β) :
    (ofList (g.code.parameters.map fun x => (x, v))).Within g.locals := by
  refine within_ofList fun e he => ?_
  obtain ⟨x, hx, rfl⟩ := List.mem_map.mp he
  exact List.mem_append_left _ hx

end Env

end FlowFixpoint
