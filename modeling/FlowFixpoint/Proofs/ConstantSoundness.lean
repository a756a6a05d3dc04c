/-
# FlowFixpoint.Proofs.ConstantSoundness — constant propagation covers every execution.

What is known about an integer describes the values it may have, and a store covers the locals if it
binds every local that has a value to something that describes the value. For graphs in which value
reads stay in their block, every execution stays covered: a block that an execution arrives at has an
input that covers its locals, the recorded value of every node that runs describes what the node
yields, and the stores that a query gives around the node cover the locals before and after it.

The proof is a simulation against the replay of a block. Inside a block `Tracks` carries three
things: the flow covers the locals, recorded values describe results, and a read that no assignment
has overtaken still agrees with its local. The last is what a refinement needs: on the outcome where
the two sides are equal, the local has the value of the other side. That outcome is known to hold
only up to the branch, so the two stores behind a test are covered one outcome each.
-/
import FlowFixpoint.Proofs.CoveredLocals
import FlowFixpoint.Proofs.StaleReads

namespace FlowFixpoint.Constants

variable {α : Type}

/-! ## What is described -/

/-- What is known about an integer allows the value. -/
def Describes : Constant → Datum α → Prop
  | .bottom, _ => False
  | .known k, v => v = .integer k
  | .top, _ => True

theorem Describes.mono {c d : Constant} {v : Datum α} (h : Describes c v) (hbelow : Below c d) :
    Describes d v := by
  have hjoin : d.lub c = d := hbelow
  cases c with
  | bottom => exact h.elim
  | top =>
    cases d <;> simp [Flat.lub] at hjoin
    trivial
  | known k =>
    cases d with
    | bottom => simp [Flat.lub] at hjoin
    | top => trivial
    | known k' =>
      have hkk' : k' = k := by
        by_contra hne
        simp [Flat.lub, hne] at hjoin
      exact hkk' ▸ h

theorem upward_describes : Upward (Describes : Constant → Datum α → Prop) :=
  fun _ _ _ h hbelow => h.mono hbelow

/-- Two things known about one integer can be combined. -/
theorem describes_meet {c : Constant} {k : Int64} (h : Describes c (Datum.integer k : Datum α)) :
    Describes (c.meet (.known k)) (Datum.integer k : Datum α) := by
  cases c with
  | bottom => exact h.elim
  | top => rfl
  | known k' =>
    obtain rfl : k = k' := by simpa [Describes] using h
    simp [Flat.meet, Describes]

/-! ## Arithmetic -/

theorem toInt_of_checked? {i : Int} {k : Int64} (h : Integer.checked? i = some k) :
    k.toInt = i := by
  unfold Integer.checked? at h
  split at h
  · next hfits =>
    obtain rfl := Option.some.inj h
    have hmin : Int64.minValue.toInt = -2 ^ 63 := by decide
    have hmax : Int64.maxValue.toInt = 2 ^ 63 - 1 := by decide
    obtain ⟨hlow, hhigh⟩ := hfits
    exact Int64.toInt_ofInt_of_le (by omega) (by omega)
  · cases h

/-- What is computed is what the operator gives. -/
theorem gives_of_compute? {op : ArithOp} {l r k : Int64} (h : compute? op l r = some k) :
    op.Gives l r k := by
  obtain ⟨i, hi, hk⟩ := Option.bind_eq_some_iff.mp h
  have hint := toInt_of_checked? hk
  cases op with
  | add => exact hint.trans (Option.some.inj hi).symm
  | subtract => exact hint.trans (Option.some.inj hi).symm
  | multiply => exact hint.trans (Option.some.inj hi).symm
  | divide =>
    simp only [integerResult?] at hi
    split at hi
    · cases hi
    · next hne => exact ⟨hne, hint.trans (Option.some.inj hi).symm⟩
  | remainder =>
    simp only [integerResult?] at hi
    split at hi
    · cases hi
    · next hne =>
      rw [not_or, not_not] at hne
      exact ⟨hne.1, hne.2, hint.trans (Option.some.inj hi).symm⟩

theorem describes_fold {op : ArithOp} {c d : Constant} {u v w : Datum α} (hu : Describes c u)
    (hv : Describes d v)
    (hw : ∀ l r k, u = .integer l → v = .integer r → op.Gives l r k → w = .integer k) :
    Describes (fold op c d) w := by
  cases c with
  | bottom => exact hu.elim
  | top =>
    cases d with
    | bottom => exact hv.elim
    | known r => trivial
    | top => trivial
  | known l =>
    cases d with
    | bottom => exact hv.elim
    | top => trivial
    | known r =>
      change Describes (ofOption (compute? op l r)) w
      cases hk : compute? op l r with
      | none => trivial
      | some k => exact hw l r k hu hv (gives_of_compute? hk)

theorem describes_negate {c : Constant} {u w : Datum α} (hu : Describes c u)
    (hw : ∀ l k : Int64, u = .integer l → k.toInt = -l.toInt → w = .integer k) :
    Describes (negate c) w := by
  cases c with
  | bottom => exact hu.elim
  | top => trivial
  | known l =>
    change Describes (ofOption (Integer.checked? (-l.toInt))) w
    cases hk : Integer.checked? (-l.toInt) with
    | none => trivial
    | some k => exact hw l k hu (toInt_of_checked? hk)

/-! ## What is covered -/

/-- Every local that has a value is bound to something that describes it. -/
def Covers (store : ConstantStore) (locals : LocalVar → Option (Datum α)) : Prop :=
  ∀ x v, locals x = some v → ∃ c, store.get? x = some c ∧ Describes c v

theorem Covers.mono {store store' : ConstantStore} {locals : LocalVar → Option (Datum α)}
    (h : Covers store locals) (hbelow : Below store store') : Covers store' locals :=
  CoveredBy.mono upward_describes h hbelow

theorem Covers.regular {φ : Flow ConstantStore} {locals : LocalVar → Option (Datum α)}
    {outcome : Bool} (h : Covers (φ.side outcome) locals) : Covers φ.regular locals :=
  CoveredBy.regular upward_describes h

theorem Covers.lookup {store : ConstantStore} {locals : LocalVar → Option (Datum α)}
    (h : Covers store locals) {x : LocalVar} {v : Datum α} (hv : locals x = some v) :
    Describes (lookup store x) v := by
  obtain ⟨c, hc, hdescribes⟩ := h x v hv
  simpa [Constants.lookup, hc] using hdescribes

/-- What a read finds in the two stores of a flow describes the local, if their join covers it. -/
theorem Covers.describes_read {φ : Flow ConstantStore} {locals : LocalVar → Option (Datum α)}
    (h : Covers φ.regular locals) {x : LocalVar} {v : Datum α} (hv : locals x = some v) :
    Describes ((Constants.lookup φ.onTrue x).lub (Constants.lookup φ.onFalse x)) v :=
  CoveredBy.read upward_describes (fun _ => trivial : ∀ v : Datum α, Describes .top v) h hv

/-- Binding a local anew keeps covering if what it is bound to describes its value. -/
theorem Covers.set {store : ConstantStore} {locals locals' : LocalVar → Option (Datum α)}
    (h : Covers store locals) {x : LocalVar} {c : Constant}
    (hx : ∀ v, locals' x = some v → Describes c v)
    (hother : ∀ y, y ≠ x → locals' y = locals y) : Covers (store.set x c) locals' :=
  CoveredBy.set h hx hother

/-- At the entry everything that may have a value is bound, to something that allows all values. -/
theorem get?_initial {code : CodeUnit} {x : LocalVar} (hx : x ∈ code.parameters) :
    (initial code).get? x = some .top := by
  rw [initial]
  exact Env.get?_ofList_map hx Flat.top

/-! ## Simulation inside a block -/

/-- What ties the replay of the nodes before a point to an execution of them. -/
structure Tracks (table : Std.ExtTreeMap NodeId Constant) (pre : List Node)
    (φ : Flow ConstantStore) (σ : Machine α) : Prop where
  covers : ∀ outcome, Covers (φ.side outcome) σ.locals
  /-- Recorded values describe results. -/
  results : ∀ n ∈ pre, ∃ v, σ.results n.id = some v ∧ Describes ((table[n.id]?).getD .top) v
  /-- A read agrees with its local as long as the local is not assigned. -/
  current : ∀ before n mid x, pre = before ++ n :: mid → n.kind = .localRead x →
    (∀ k ∈ mid, ¬ k.Assigns x) → σ.results n.id = σ.locals x

/-- Value reads stay in their block: conditional blocks are empty, operands that constant propagation
looks at come before their node in its block, an equality test is the last node of its block, and
no read that it compares is overtaken by an assignment. -/
structure BlockLocal (g : Graph) : Prop where
  conditional_empty : ∀ b block, g.block? b = some block → block.kind = .conditional →
    g.nodesOf b = []
  operands_before : ∀ b pre n post, g.nodesOf b = pre ++ n :: post → ∀ m ∈ reads n.kind,
    ∃ k ∈ pre, k.id = m
  equality_last : ∀ b pre n post, g.nodesOf b = pre ++ n :: post → n.kind.isEquality = true →
    post = []
  unassigned : ∀ b pre k mid n post, g.nodesOf b = pre ++ k :: (mid ++ n :: post) →
    n.kind.isEquality = true → k.id ∈ n.kind.operands → ∀ x, k.kind = .localRead x →
      ∀ j ∈ mid, ¬ j.Assigns x

section Node

variable {g : Graph} {b : BlockId} {pre post : List Node} {n : Node}
  {table : Std.ExtTreeMap NodeId Constant} {φ : Flow ConstantStore} {σ : Machine α} {v : Datum α}

/-- The operands of a node have results, described by what is recorded for them. -/
theorem Tracks.describes_operand (htracks : Tracks table pre φ σ) (hlocal : BlockLocal g)
    (hsplit : g.nodesOf b = pre ++ n :: post) {m : NodeId} (hm : m ∈ reads n.kind) :
    ∃ u, σ.results m = some u ∧
      Describes (operand { graph := g, values := table, replay := true } m) u := by
  obtain ⟨k, hk, rfl⟩ := hlocal.operands_before b pre n post hsplit m hm
  exact htracks.results k hk

/-- What a node yields is described by the value that its transfer gives it, if what is recorded
describes its operands and the arriving flow covers the locals. -/
theorem describes_of_yields {scene : Scene Constant}
    (hoperand : ∀ m ∈ reads n.kind, ∃ u, σ.results m = some u ∧ Describes (operand scene m) u)
    (hcovers : Covers φ.regular σ.locals) (hyields : σ.Yields n.kind v) {c : Constant}
    (hc : (transfer scene n φ).value = some c) : Describes c v := by
  cases hkind : n.kind with
  | literal l =>
    cases l with
    | integer k =>
      simp only [transfer, hkind, Outcome.single, Option.some.injEq] at hc
      simp only [Machine.Yields, hkind] at hyields
      exact hc ▸ hyields
    | _ => simp [transfer, hkind, Outcome.pass, Outcome.single] at hc
  | localRead x =>
    simp only [transfer, hkind, Outcome.keep, Option.some.injEq] at hc
    simp only [Machine.Yields, hkind] at hyields
    exact hc ▸ hcovers.describes_read hyields
  | assignment x m =>
    simp only [transfer, hkind, Outcome.single, Option.some.injEq] at hc
    simp only [Machine.Yields, hkind] at hyields
    obtain ⟨u, hu, hdescribes⟩ := hoperand m (by simp [hkind, reads])
    obtain rfl : u = v := by simpa [hu] using hyields
    exact hc ▸ hdescribes
  | arithmetic op l r =>
    simp only [transfer, hkind, Outcome.single, Option.some.injEq] at hc
    simp only [Machine.Yields, hkind] at hyields
    obtain ⟨u, hu, hdu⟩ := hoperand l (by simp [hkind, reads])
    obtain ⟨w, hw, hdw⟩ := hoperand r (by simp [hkind, reads])
    refine hc ▸ describes_fold hdu hdw ?_
    rintro i j k rfl rfl hgives
    exact hyields i j k hu hw hgives
  | minus m =>
    simp only [transfer, hkind, Outcome.single, Option.some.injEq] at hc
    simp only [Machine.Yields, hkind] at hyields
    obtain ⟨u, hu, hdu⟩ := hoperand m (by simp [hkind, reads])
    refine hc ▸ describes_negate hdu ?_
    rintro i k rfl hneg
    exact hyields i k hu hneg
  | comparison op l r =>
    cases op <;> simp [transfer, hkind, Outcome.pass, Outcome.single, value_equality] at hc
  | _ => simp [transfer, hkind, Outcome.pass, Outcome.single] at hc

/-- So it is where value reads stay in their block. -/
theorem describes_value (htracks : Tracks table pre φ σ) (hlocal : BlockLocal g)
    (hsplit : g.nodesOf b = pre ++ n :: post) (hyields : σ.Yields n.kind v) {c : Constant}
    (hc : (transfer { graph := g, values := table, replay := true } n φ).value = some c) :
    Describes c v :=
  describes_of_yields (fun _ hm => htracks.describes_operand hlocal hsplit hm)
    (htracks.covers true).regular hyields hc

/-- An assignment of a described value keeps a store covering. -/
theorem Covers.assign {store : ConstantStore} (h : Covers store σ.locals) {x : LocalVar}
    {m : NodeId} (hkind : n.kind = .assignment x m) {c : Constant} (hdescribes : Describes c v) :
    Covers (store.set x c) (σ.after n v).locals := by
  refine h.set ?_ ?_
  · intro w hw
    obtain rfl : v = w := by simpa [Machine.after, hkind] using hw
    exact hdescribes
  · intro y hy
    simp [Machine.after, hkind, hy]

/-- But for assignments and equality tests, a node passes the flow on, as it is or as one store. -/
theorem flow_transfer (scene : Scene Constant) (φ : Flow ConstantStore)
    (hassign : ∀ x, ¬ n.Assigns x) (hequality : n.kind.isEquality = false) :
    (transfer scene n φ).flow = φ ∨ (transfer scene n φ).flow = .single φ.regular := by
  cases hkind : n.kind with
  | assignment x m => exact absurd ⟨m, hkind⟩ (hassign x)
  | localRead x => simp [transfer, hkind, Outcome.keep]
  | literal l => cases l <;> simp [transfer, hkind, Outcome.single, Outcome.pass]
  | comparison op l r =>
    cases op <;> simp_all [transfer, Outcome.single, Outcome.pass, NodeKind.isEquality]
  | _ => simp [transfer, hkind, Outcome.single, Outcome.pass]

/-- But for equality tests, both stores behind a node cover the locals. -/
theorem covers_flow (htracks : Tracks table pre φ σ) (hlocal : BlockLocal g)
    (hsplit : g.nodesOf b = pre ++ n :: post) (hyields : σ.Yields n.kind v)
    (hequality : n.kind.isEquality = false) (outcome : Bool) :
    Covers ((transfer { graph := g, values := table, replay := true } n φ).flow.side outcome)
      (σ.after n v).locals := by
  have hregular : Covers φ.regular σ.locals := (htracks.covers true).regular
  by_cases hassign : ∃ x, n.Assigns x
  · obtain ⟨x, m, hkind⟩ := hassign
    obtain ⟨u, hu, hdescribes⟩ := htracks.describes_operand hlocal hsplit (m := m)
      (by simp [hkind, reads])
    simp only [Machine.Yields, hkind] at hyields
    obtain rfl : u = v := by simpa [hu] using hyields
    simp only [transfer, hkind, Outcome.single, Flow.side_single]
    exact hregular.assign hkind hdescribes
  · have hnone : ∀ x, ¬ n.Assigns x := fun x hx => hassign ⟨x, hx⟩
    have hlocals : (σ.after n v).locals = σ.locals :=
      funext fun x => σ.locals_after_of_not_assigns v (hnone x)
    rw [hlocals]
    rcases flow_transfer { graph := g, values := table, replay := true } φ hnone hequality with
      hflow | hflow
    · rw [hflow]
      exact htracks.covers outcome
    · rw [hflow, Flow.side_single]
      exact hregular

/-- A refinement is about a local that has the refined value whenever the two sides are equal, if
what is recorded describes the sides and a side that is read still agrees with its local. -/
theorem locals_of_equal {scene : Scene Constant} {l r : NodeId}
    (hoperand : ∀ m ∈ [l, r], ∃ u, σ.results m = some u ∧ Describes (operand scene m) u)
    (hcurrent : ∀ m ∈ [l, r], ∀ x, scene.graph.localRead? m = some x → σ.results m = σ.locals x)
    (hequal : σ.results l = σ.results r) {x : LocalVar} {c : Constant}
    (hrefine : refinement? scene l r = some (x, c)) :
    ∃ k, c = .known k ∧ σ.locals x = some (.integer k) := by
  -- a read of `x` against a known value, on whichever side it stands
  have hmain : ∀ m m', m ∈ [l, r] → m' ∈ [l, r] → σ.results m = σ.results m' → ∀ x k,
      scene.graph.localRead? m = some x → (operand scene m').value? = some k →
        σ.locals x = some (.integer k) := by
    intro m m' hm hm' heq x k hread hvalue
    obtain ⟨u, hu, hdescribes⟩ := hoperand m' hm'
    have hknown : operand scene m' = .known k := by
      cases hoperand : operand scene m' <;> simp_all [Flat.value?]
    obtain rfl : u = .integer k := by simpa [hknown, Describes] using hdescribes
    rw [← hcurrent m hm x hread, heq, hu]
  unfold refinement? at hrefine
  split at hrefine
  · next y k hread hknown =>
    cases hrefine
    exact ⟨k, rfl, hmain l r (by simp) (by simp) hequal x k hread hknown⟩
  · split at hrefine
    · next y k hread hknown =>
      cases hrefine
      exact ⟨k, rfl, hmain r l (by simp) (by simp) hequal.symm x k hread hknown⟩
    · cases hrefine

/-- A read that stands before a node, and that no assignment overtakes, agrees with its local. -/
theorem Tracks.results_of_read (hg : g.WellFormed) (htracks : Tracks table pre φ σ)
    (hsplit : g.nodesOf b = pre ++ n :: post) {m : NodeId} (hm : ∃ k ∈ pre, k.id = m)
    (hfree : ∀ before j mid, pre = before ++ j :: mid → j.id = m → ∀ x, j.kind = .localRead x →
      ∀ i ∈ mid, ¬ i.Assigns x)
    {x : LocalVar} (hread : g.localRead? m = some x) : σ.results m = σ.locals x := by
  obtain ⟨j, hj, rfl⟩ := hm
  obtain ⟨before, mid, rfl⟩ := List.append_of_mem hj
  have hkind := hg.kind_of_localRead? (show j ∈ g.nodesOf b by simp [hsplit]) hread
  exact htracks.current before j mid x rfl hkind (hfree before j mid rfl rfl x hkind)

/-- So it is where value reads stay in their block. -/
theorem locals_of_refinement? (hg : g.WellFormed) (htracks : Tracks table pre φ σ)
    (hlocal : BlockLocal g) (hsplit : g.nodesOf b = pre ++ n :: post)
    (hequality : n.kind.isEquality = true) {l r : NodeId} (hreads : reads n.kind = [l, r])
    (hoperands : n.kind.operands = [l, r]) (hequal : σ.results l = σ.results r) {x : LocalVar}
    {c : Constant}
    (hrefine : refinement? { graph := g, values := table, replay := true } l r = some (x, c)) :
    ∃ k, c = .known k ∧ σ.locals x = some (.integer k) := by
  refine locals_of_equal (fun m hm => htracks.describes_operand hlocal hsplit (hreads ▸ hm)) ?_
    hequal hrefine
  intro m hm x hread
  refine htracks.results_of_read hg hsplit
    (hlocal.operands_before b pre n post hsplit m (hreads ▸ hm)) ?_ hread
  rintro before j mid rfl rfl y hkind
  exact hlocal.unassigned b before j mid n post (by simp [hsplit]) hequality (hoperands ▸ hm) y
    hkind

/-- Behind an equality test the store of each outcome that the test may have covers the locals. -/
theorem covers_equality (hg : g.WellFormed) (htracks : Tracks table pre φ σ)
    (hlocal : BlockLocal g) (hsplit : g.nodesOf b = pre ++ n :: post)
    (hequality : n.kind.isEquality = true) {l r : NodeId} (hreads : reads n.kind = [l, r])
    (hoperands : n.kind.operands = [l, r]) {equalOn outcome : Bool}
    (hverdict : outcome = equalOn → σ.results l = σ.results r) :
    Covers ((equality { graph := g, values := table, replay := true } equalOn l r φ).flow.side
      outcome) σ.locals := by
  have hrefined : ∀ (side : Bool) x c, σ.results l = σ.results r →
      refinement? { graph := g, values := table, replay := true } l r = some (x, c) →
        Covers (refine (φ.side side) x c) σ.locals := by
    intro side x c hequal hrefine
    obtain ⟨k, rfl, hx⟩ := locals_of_refinement? hg htracks hlocal hsplit hequality hreads hoperands
      hequal hrefine
    refine (htracks.covers side).set ?_ fun _ _ => rfl
    intro w hw
    obtain rfl : (.integer k : Datum α) = w := by simpa [hx] using hw
    exact describes_meet ((htracks.covers side).lookup hx)
  unfold equality
  split
  · simp only [Outcome.pass, Outcome.single, Flow.side_single]
    exact (htracks.covers true).regular
  · next x c hrefine =>
    -- only the store of the outcome on which the sides are equal is refined
    cases equalOn <;> cases outcome
    · exact hrefined false x c (hverdict rfl) hrefine
    · exact htracks.covers true
    · exact htracks.covers false
    · exact hrefined true x c (hverdict rfl) hrefine

/-- Behind any node, the store of each outcome that the node allows covers the locals. -/
theorem covers_transfer (hg : g.WellFormed) (htracks : Tracks table pre φ σ)
    (hlocal : BlockLocal g) (hsplit : g.nodesOf b = pre ++ n :: post)
    (hyields : σ.Yields n.kind v) {outcome : Bool}
    (hverdict : (σ.after n v).Verdict n.kind outcome) :
    Covers ((transfer { graph := g, values := table, replay := true } n φ).flow.side outcome)
      (σ.after n v).locals := by
  cases hequality : n.kind.isEquality with
  | false => exact covers_flow htracks hlocal hsplit hyields hequality outcome
  | true =>
    -- the operands come before the test, so their results are still the ones it saw
    have hresults : ∀ m ∈ reads n.kind, (σ.after n v).results m = σ.results m := by
      intro m hm
      obtain ⟨k, hk, rfl⟩ := hlocal.operands_before b pre n post hsplit m hm
      exact σ.results_after_of_ne n v (hg.id_ne_of_split hsplit hk List.mem_cons_self)
    cases hkind : n.kind with
    | comparison op l r =>
      have hlocals : (σ.after n v).locals = σ.locals := by simp [Machine.after, hkind]
      rw [hlocals]
      cases op with
      | equal =>
        simp only [Machine.Verdict, hkind] at hverdict
        rw [hresults l (by simp [hkind, reads]), hresults r (by simp [hkind, reads])] at hverdict
        simp only [transfer, hkind]
        exact covers_equality hg htracks hlocal hsplit hequality (by simp [hkind, reads])
          (by simp [hkind, NodeKind.operands]) hverdict.mp
      | notEqual =>
        simp only [Machine.Verdict, hkind] at hverdict
        rw [hresults l (by simp [hkind, reads]), hresults r (by simp [hkind, reads])] at hverdict
        simp only [transfer, hkind]
        refine covers_equality hg htracks hlocal hsplit hequality (by simp [hkind, reads])
          (by simp [hkind, NodeKind.operands]) ?_
        rintro rfl
        simpa using hverdict
      | _ => simp [hkind, NodeKind.isEquality] at hequality
    | _ => simp [hkind, NodeKind.isEquality] at hequality

/-- One more node keeps an execution tracked if the flow behind it covers the locals and what is
recorded for it describes what it yields. -/
theorem Tracks.extend (htracks : Tracks table pre φ σ) {table' : Std.ExtTreeMap NodeId Constant}
    {φ' : Flow ConstantStore} (hfresh : ∀ k ∈ pre, k.id ≠ n.id) (hyields : σ.Yields n.kind v)
    (hcovers : ∀ outcome, Covers (φ'.side outcome) (σ.after n v).locals)
    (htable : ∀ k ∈ pre, table'[k.id]? = table[k.id]?)
    (hself : Describes ((table'[n.id]?).getD .top) v) :
    Tracks table' (pre ++ [n]) φ' (σ.after n v) := by
  refine ⟨hcovers, ?_, ?_⟩
  · intro k hk
    rcases List.mem_append.mp hk with hk | hk
    · rw [σ.results_after_of_ne n v (hfresh k hk), htable k hk]
      exact htracks.results k hk
    · obtain rfl := List.mem_singleton.mp hk
      exact ⟨v, σ.results_after_self k v, hself⟩
  · intro before k mid x hpre hkind hmid
    rcases List.eq_nil_or_concat mid with rfl | ⟨mid, last, rfl⟩
    · -- the node itself is the read
      obtain ⟨rfl, rfl⟩ := List.append_singleton_inj.mp hpre
      have hassign : ¬ n.Assigns x := by
        rintro ⟨m, hassign⟩
        rw [hkind] at hassign
        cases hassign
      rw [σ.results_after_self, σ.locals_after_of_not_assigns v hassign]
      simp only [Machine.Yields, hkind] at hyields
      exact hyields.symm
    · -- the read stands further back, and the new node does not assign its local
      rw [List.concat_eq_append] at hpre hmid
      obtain ⟨rfl, rfl⟩ : pre = before ++ k :: mid ∧ n = last := by
        rw [← List.append_singleton_inj, hpre]
        simp
      rw [σ.results_after_of_ne n v (hfresh k (by simp)),
        σ.locals_after_of_not_assigns v (hmid n (by simp))]
      exact htracks.current before k mid x rfl hkind fun j hj => hmid j (by simp [hj])

/-- One more node keeps an execution tracked, if it is no equality test. -/
theorem Tracks.step (hg : g.WellFormed) (htracks : Tracks table pre φ σ) (hlocal : BlockLocal g)
    (hsplit : g.nodesOf b = pre ++ n :: post) (hyields : σ.Yields n.kind v)
    (hequality : n.kind.isEquality = false)
    (hrecorded :
      (transfer { graph := g, values := table, replay := true } n φ).value = table[n.id]?) :
    Tracks table (pre ++ [n]) (transfer { graph := g, values := table, replay := true } n φ).flow
      (σ.after n v) := by
  refine htracks.extend (fun k hk => hg.id_ne_of_split hsplit hk List.mem_cons_self) hyields
    (covers_flow htracks hlocal hsplit hyields hequality) (fun _ _ => rfl) ?_
  cases hc : table[n.id]? with
  | none => trivial
  | some c => exact describes_value htracks hlocal hsplit hyields (hrecorded.trans hc)

end Node

/-! ## Simulation of whole blocks -/

section Block

variable {g : Graph} (hg : g.WellFormed) (hlocal : BlockLocal g) {b : BlockId}
  {f : Findings Constant ConstantStore} {input : Flow ConstantStore}
  (hfixed : analysis.FixedAt g f f.values b input) {σ τ : Machine α}

include hg hlocal hfixed

/-- Up to any node of a block an execution is tracked by the replay. -/
theorem tracks_of_runs (hcovers : ∀ outcome, Covers (input.side outcome) σ.locals)
    {pre : List Node} (hruns : σ.Runs pre τ) :
    ∀ n post, g.nodesOf b = pre ++ n :: post →
      Tracks f.values pre (Replay.passAll ⟨g, analysis⟩ f.values input pre) τ := by
  induction hruns with
  | nil =>
    intro n post _
    exact ⟨hcovers, by simp, by simp⟩
  | @snoc ns τ n v _ hyields ih =>
    intro m post hsplit
    have hsplit' : g.nodesOf b = ns ++ n :: m :: post := by simp [hsplit]
    have hequality : n.kind.isEquality = false := by
      by_contra hne
      have hlast := hlocal.equality_last b ns n (m :: post) hsplit' (by simpa using hne)
      cases hlast
    have hstep := (ih n (m :: post) hsplit').step hg hlocal hsplit' hyields hequality
      (hfixed.values ns n (m :: post) hsplit')
    rw [Replay.passAll_concat]
    exact hstep

/-- At the end of a block the flow behind it covers the locals, for every outcome left open. -/
theorem covers_of_leaves (hcovers : ∀ outcome, Covers (input.side outcome) σ.locals)
    (hruns : σ.Runs (g.nodesOf b) τ) {test : Option Bool} (hleaves : τ.Leaves (g.nodesOf b) test)
    {outcome : Bool} (htest : test = none ∨ test = some outcome) :
    Covers ((Replay.last ⟨g, analysis⟩ f.values input (g.nodesOf b)).flow.side outcome)
      τ.locals := by
  rcases List.eq_nil_or_concat (g.nodesOf b) with hnil | ⟨ns, n, hconcat⟩
  · rw [hnil] at hruns ⊢
    obtain rfl := Machine.runs_nil hruns
    exact hcovers outcome
  · rw [List.concat_eq_append] at hconcat
    have hsplit : g.nodesOf b = ns ++ n :: [] := hconcat
    rw [hconcat] at hruns hleaves ⊢
    obtain ⟨mid, v, hmid, hyields, rfl⟩ := Machine.runs_concat hruns
    have htracks := tracks_of_runs hg hlocal hfixed hcovers hmid n [] hsplit
    rw [Replay.last_concat, Replay.last_flow]
    refine covers_transfer hg htracks hlocal hsplit hyields ?_
    simp only [Machine.Leaves, List.getLast?_concat] at hleaves
    split at hleaves
    · obtain ⟨decided, rfl, hverdict⟩ := hleaves
      rcases htest with htest | htest
      · cases htest
      · cases htest
        exact hverdict
    · next hne => exact Machine.verdict_of_not_equality (by simpa using hne) _ _

end Block

/-! ## Simulation of executions -/

/-- Constant propagation sends nothing special along the edges of exceptions. -/
theorem thrown_transfer (scene : Scene Constant) (n : Node) (φ : Flow ConstantStore) :
    (transfer scene n φ).thrown = [] := by
  have hequality : ∀ equalOn l r, (equality scene equalOn l r φ).thrown = [] := by
    intro equalOn l r
    unfold equality
    split
    · rfl
    · cases equalOn <;> rfl
  unfold transfer
  split <;> first | rfl | exact hequality _ _ _

theorem thrownStore_last (g : Graph) (table : Std.ExtTreeMap NodeId Constant)
    (input : Flow ConstantStore) (ns : List Node) (e : ExceptionType) :
    (Replay.last ⟨g, analysis⟩ table input ns).thrownStore e =
      (Replay.last ⟨g, analysis⟩ table input ns).flow.regular := by
  have hthrown : (Replay.last ⟨g, analysis⟩ table input ns).thrown = [] := by
    rcases List.eq_nil_or_concat ns with rfl | ⟨ns, n, rfl⟩
    · rfl
    · rw [List.concat_eq_append, Replay.last_concat]
      exact thrown_transfer _ _ _
  simp [Outcome.thrownStore, hthrown]

/-- Is the block a conditional one? -/
def Branching (g : Graph) (b : BlockId) : Prop :=
  ∃ block, g.block? b = some block ∧ block.kind = .conditional

/-- The input of a block covers the locals of an arriving execution: on both sides, or only on the
side that a test has decided if the block branches. -/
def CoversArrival (g : Graph) (b : BlockId) (input : Flow ConstantStore)
    (locals : LocalVar → Option (Datum α)) (test : Option Bool) : Prop :=
  ∀ outcome, (Branching g b → test = none ∨ test = some outcome) →
    Covers (input.side outcome) locals

theorem CoversArrival.regular {g : Graph} {b : BlockId} {input : Flow ConstantStore}
    {locals : LocalVar → Option (Datum α)} {test : Option Bool}
    (h : CoversArrival g b input locals test) : Covers input.regular locals := by
  cases test with
  | none => exact (h true fun _ => .inl rfl).regular
  | some outcome => exact (h outcome fun _ => .inr rfl).regular

/-- What has absorbed a covering flow covers. -/
theorem Covers.absorbed {arrived φ : Flow ConstantStore} (habsorbed : join arrived φ = arrived)
    {locals : LocalVar → Option (Datum α)} {outcome : Bool} (h : Covers (φ.side outcome) locals) :
    Covers (arrived.side outcome) locals :=
  h.mono ((Flow.below_iff.mp habsorbed).2 outcome)

/-- What a block without branches sends along an edge covers the locals, for every outcome that the
edge leaves open. -/
theorem covers_sentForward {last : Outcome Constant ConstantStore}
    {locals : LocalVar → Option (Datum α)} {test : Option Bool}
    (hcovers : ∀ outcome, test = none ∨ test = some outcome →
      Covers (last.flow.side outcome) locals)
    (hthrown : ∀ e, last.thrownStore e = last.flow.regular) {label : EdgeLabel} {kind : BlockKind}
    (hlabel : label ≠ .onTrue ∧ label ≠ .onFalse) {outcome : Bool}
    (hopen : kind = .conditional → test = none ∨ test = some outcome) :
    Covers ((last.sentForward label kind).side outcome) locals := by
  have hregular : Covers last.flow.regular locals := by
    cases test with
    | none => exact (hcovers true (.inl rfl)).regular
    | some decided => exact (hcovers decided (.inr rfl)).regular
  cases label with
  | onTrue => exact absurd rfl hlabel.1
  | onFalse => exact absurd rfl hlabel.2
  | unconditional =>
    by_cases hkind : kind = .conditional
    · simp only [Outcome.sentForward, if_pos hkind]
      exact hcovers outcome (hopen hkind)
    · simp only [Outcome.sentForward, if_neg hkind, Flow.side_single]
      exact hregular
  | exception e =>
    simp only [Outcome.sentForward, Flow.side_single, hthrown]
    exact hregular

section Run

variable {g : Graph} (hg : g.WellFormed) (hlocal : BlockLocal g)
  {f : Findings Constant ConstantStore} (hfixpoint : analysis.Fixpoint g f)

include hg hlocal hfixpoint

/-- Taking an edge keeps an execution covered. -/
theorem coversArrival_along {e : Edge} {input : Flow ConstantStore} {σ τ : Machine α}
    {test test' : Option Bool} (hinput : f.inputs[e.source]? = some input)
    (hcovers : CoversArrival g e.source input σ.locals test)
    (hruns : σ.Runs (g.nodesOf e.source) τ) (he : e ∈ g.edges)
    (htakes : g.Takes e.source test e.label) (hleaves : τ.Leaves (g.nodesOf e.source) test') :
    ∃ arrived, f.inputs[e.target]? = some arrived ∧
      CoversArrival g e.target arrived τ.locals test' := by
  have hfixed := hfixpoint e.source input hinput
  obtain ⟨target, arrived, htarget, harrived, habsorbed⟩ := hfixed.edges e he rfl
  obtain ⟨source, hsource⟩ := hg.exists_block_source he
  refine ⟨arrived, harrived, ?_⟩
  intro outcome hopen
  refine Covers.absorbed habsorbed ?_
  by_cases hkind : source.kind = .conditional
  · -- an empty block, left by the branch of its edge
    rw [hlocal.conditional_empty _ source hsource hkind] at hruns ⊢
    obtain rfl := Machine.runs_nil hruns
    have hside : ∀ decided, (∀ known, test = some known → known = decided) →
        Covers (input.side decided) τ.locals := by
      intro decided hdecided
      refine hcovers decided fun _ => ?_
      cases test with
      | none => exact .inl rfl
      | some known => exact .inr (congrArg some (hdecided known rfl))
    rcases hg.label_of_conditional hsource hkind he rfl with hlabel | hlabel
    · rw [hlabel, Outcome.sentForward, Flow.side_single]
      exact hside true fun known hknown => (htakes source known hsource hkind hknown).1 hlabel
    · rw [hlabel, Outcome.sentForward, Flow.side_single]
      exact hside false fun known hknown => (htakes source known hsource hkind hknown).2 hlabel
  · have hboth : ∀ decided, Covers (input.side decided) σ.locals := by
      intro decided
      refine hcovers decided ?_
      rintro ⟨block, hblock, hconditional⟩
      obtain rfl : source = block := by simpa [hsource] using hblock
      exact absurd hconditional hkind
    have hleft : ∀ decided, test' = none ∨ test' = some decided →
        Covers ((Replay.last ⟨g, analysis⟩ f.values input (g.nodesOf e.source)).flow.side decided)
          τ.locals := fun decided htest =>
      covers_of_leaves hg hlocal hfixed hboth hruns hleaves htest
    exact covers_sentForward hleft (thrownStore_last g f.values input _)
      (hg.label_of_not_conditional hsource hkind he rfl) fun hconditional =>
        hopen ⟨target, htarget, hconditional⟩

/-- Every execution is covered wherever it arrives. -/
theorem coversArrival_of_arrives {seed : Flow ConstantStore}
    (hseed : f.inputs[g.entry]? = some seed)
    (habsorbed : join seed (.single (initial g.code)) = seed) {b : BlockId} {σ : Machine α}
    {test : Option Bool} (h : Arrives g b σ test) :
    ∃ input, f.inputs[b]? = some input ∧ CoversArrival g b input σ.locals test := by
  induction h with
  | entry hparameters =>
    refine ⟨seed, hseed, fun outcome _ => Covers.absorbed habsorbed ?_⟩
    intro x v hv
    rw [Flow.side_single]
    exact ⟨.top, get?_initial ((hparameters x).mp (by simp [hv])), trivial⟩
  | along _ hruns he htakes hleaves ih =>
    obtain ⟨input, hinput, hcovers⟩ := ih
    exact coversArrival_along hg hlocal hfixpoint hinput hcovers hruns he htakes hleaves

end Run

/-! ## What a report says about executions -/

/-- The kinds of nodes that constant propagation gives a value. -/
def gives : NodeKind → Bool
  | .literal (.integer _) | .localRead _ | .assignment _ _ | .arithmetic _ _ _ | .minus _ => true
  | _ => false

theorem isSome_value {n : Node} (h : gives n.kind = true) (scene : Scene Constant)
    (φ : Flow ConstantStore) : (transfer scene n φ).value.isSome = true := by
  unfold gives at h
  split at h
  · next k hkind => simp [transfer, hkind, Outcome.single]
  · next x hkind => simp [transfer, hkind, Outcome.keep]
  · next x m hkind => simp [transfer, hkind, Outcome.single]
  · next op l r hkind => simp [transfer, hkind, Outcome.single]
  · next m hkind => simp [transfer, hkind, Outcome.single]
  · cases h

/-- A report accounts for an execution that has arrived at a block. -/
structure Accounts (g : Graph) (r : Report Constant ConstantStore) (b : BlockId) (σ : Machine α)
    (test : Option Bool) : Prop where
  /-- The block has an input, and it covers the locals. -/
  arrival : ∃ input, r.input? b = some input ∧ CoversArrival g b input σ.locals test ∧
    Covers input.regular σ.locals
  /-- The recorded value of a node that runs describes what the node yields. -/
  value : ∀ pre n post τ v, g.nodesOf b = pre ++ n :: post → σ.Runs pre τ →
    τ.Yields n.kind v → (gives n.kind = true → (r.value? n.id).isSome = true) ∧
      ∀ c, r.value? n.id = some c → Describes c v
  /-- The stores around a node that runs cover the locals before and after it. -/
  stores : ∀ pre n post τ v, g.nodesOf b = pre ++ n :: post → σ.Runs pre τ →
    τ.Yields n.kind v → ∃ before after, r.storesAround n.id = .ok (some (before, after)) ∧
      Covers before τ.locals ∧ Covers after (τ.after n v).locals

/-- The report of a finished run accounts for every execution wherever it arrives. -/
theorem report_accounts_for_executions (settings : Settings) (g : Graph) (hg : g.Built)
    (hlocal : BlockLocal g) (p : Pass Constant ConstantStore)
    (h : analysis.solve settings g = .ok p) (b : BlockId) (σ : Machine α) (test : Option Bool)
    (harrives : Arrives g b σ test) : Accounts g (.ofRun analysis g (.ok p)) b σ test := by
  have hrun := readsOnly.fixedUpToStaleReads rfl hg.wellFormed h
  have hfixpoint : analysis.Fixpoint g p.findings := fun c input hinput =>
    hrun.nearby c input hinput fun pre n post hsplit m hm =>
      .inl (hlocal.operands_before c pre n post hsplit m hm)
  obtain ⟨seeds, hseeds, hstart⟩ := hrun.seeds
  obtain rfl := Except.ok.inj hseeds
  obtain ⟨seed, hseed, habsorbed⟩ := hstart g.entry (initial g.code) List.mem_cons_self
  obtain ⟨input, hinput, hcovers⟩ :=
    coversArrival_of_arrives hg.wellFormed hlocal hfixpoint hseed habsorbed harrives
  have hfixed := hfixpoint b input hinput
  -- a block with nodes does not branch, so that its input covers the locals on both sides
  have hboth : ∀ {pre n post}, g.nodesOf b = pre ++ n :: post →
      ∀ outcome, Covers (input.side outcome) σ.locals := by
    intro pre n post hsplit outcome
    refine hcovers outcome ?_
    rintro ⟨block, hblock, hconditional⟩
    simp [hlocal.conditional_empty b block hblock hconditional] at hsplit
  refine ⟨⟨input, hinput, hcovers, hcovers.regular⟩, ?_, ?_⟩
  · intro pre n post τ v hsplit hruns hyields
    have htracks := tracks_of_runs hg.wellFormed hlocal hfixed (hboth hsplit) hruns n post hsplit
    have hvalue := hfixed.values pre n post hsplit
    refine ⟨fun hgives => ?_, fun c hc => ?_⟩
    · change (p.findings.values[n.id]?).isSome = true
      rw [← hvalue]
      exact isSome_value hgives _ _
    · exact describes_value htracks hlocal hsplit hyields (hvalue.trans hc)
  · intro pre n post τ v hsplit hruns hyields
    have htracks := tracks_of_runs hg.wellFormed hlocal hfixed (hboth hsplit) hruns n post hsplit
    obtain ⟨outcome, hverdict⟩ := (τ.after n v).exists_verdict n.kind
    refine ⟨_, _, Report.storesAround_ofRun rfl hg.wellFormed hinput hsplit,
      (htracks.covers true).regular, ?_⟩
    rw [Replay.passAll_concat]
    exact (covers_transfer hg.wellFormed htracks hlocal hsplit hyields hverdict).regular

/-- A parameter is compared with 3; where it is equal, it is read again. -/
def refiningDiamond : Graph :=
  .ofSteps (.lambda [⟨"p"⟩])
    [.addBlock .regular, .addBlock .conditional, .addBlock .regular, .addBlock .regular,
      .addBlock .regular,
      .push ⟨0, 3⟩ (.localRead ⟨"p"⟩), .push ⟨0, 3⟩ (.literal (.integer 3)),
      .push ⟨0, 3⟩ (.comparison .equal ⟨0, 0⟩ ⟨0, 1⟩),
      .push ⟨0, 5⟩ (.localRead ⟨"p"⟩), .push ⟨0, 5⟩ (.assignment ⟨"r"⟩ ⟨0, 3⟩),
      .push ⟨0, 6⟩ (.literal (.integer 0)), .push ⟨0, 6⟩ (.assignment ⟨"r"⟩ ⟨0, 5⟩),
      .push ⟨0, 7⟩ (.localRead ⟨"r"⟩),
      .addEdge ⟨0, 0⟩ ⟨0, 3⟩ .unconditional, .addEdge ⟨0, 3⟩ ⟨0, 4⟩ .unconditional,
      .addEdge ⟨0, 4⟩ ⟨0, 5⟩ .onTrue, .addEdge ⟨0, 4⟩ ⟨0, 6⟩ .onFalse,
      .addEdge ⟨0, 5⟩ ⟨0, 7⟩ .unconditional, .addEdge ⟨0, 6⟩ ⟨0, 7⟩ .unconditional,
      .addEdge ⟨0, 7⟩ ⟨0, 1⟩ .unconditional]

theorem refiningDiamond_built : refiningDiamond.Built := Graph.built_ofSteps (by decide +kernel)

theorem refiningDiamond_blockLocal : BlockLocal refiningDiamond where
  conditional_empty b block hblock hkind := by
    obtain rfl := refiningDiamond_built.wellFormed.id_of_block? hblock
    obtain ⟨-, hget⟩ := Graph.block?_eq_some_iff.mp hblock
    have hmem := Array.mem_toList_iff.mpr (Array.mem_of_getElem? hget)
    have hall : ∀ block ∈ refiningDiamond.blocks.toList, block.kind = .conditional →
        refiningDiamond.nodesOf block.id = [] := by
      decide +kernel
    exact hall block hmem hkind
  operands_before _ _ _ _ hsplit :=
    refiningDiamond_built.wellFormed.forall_nodesOf
      (P := fun _ pre n _ => ∀ m ∈ reads n.kind, ∃ k ∈ pre, k.id = m) (by decide +kernel) hsplit
  equality_last _ _ _ _ hsplit :=
    refiningDiamond_built.wellFormed.forall_nodesOf
      (P := fun _ _ n post => n.kind.isEquality = true → post = []) (by decide +kernel) hsplit
  unassigned _ _ k _ _ _ hsplit hequality _ x _ j hj := by
    -- only the literal stands between a node and the test
    have hall := refiningDiamond_built.wellFormed.forall_nodesOf
      (P := fun _ _ _ rest => ∀ t ∈ splits rest, t.2.1.kind.isEquality = true →
        ∀ j ∈ t.1, j.kind = .literal (.integer 3))
      (by decide +kernel) hsplit
    rintro ⟨m, hassigns⟩
    have hliteral := hall _ (mem_splits.mpr rfl) hequality j hj
    simp [hassigns] at hliteral

/-- The parameter is 3. -/
def atThree : Machine Unit where
  locals x := if x = ⟨"p"⟩ then some (.integer 3) else none
  results _ := none

/-- The execution with parameter 3 passes the test, and the report accounts for it where the
parameter is read again. -/
theorem refiningDiamond_accounts_for_executions :
    refiningDiamond.Built ∧ BlockLocal refiningDiamond ∧
      ∃ p, analysis.solve (.default .debug) refiningDiamond = .ok p ∧
        ∃ σ : Machine Unit, σ.locals ⟨"p"⟩ = some (.integer 3) ∧
          Arrives refiningDiamond ⟨0, 5⟩ σ none ∧
          Accounts refiningDiamond (.ofRun analysis refiningDiamond (.ok p)) ⟨0, 5⟩ σ none := by
  obtain ⟨p, hp⟩ :=
    exists_eq_ok (x := analysis.solve (.default .debug) refiningDiamond) (by decide +kernel)
  have hentry : Arrives refiningDiamond ⟨0, 0⟩ atThree none := by
    refine Arrives.entry (g := refiningDiamond) fun x => ?_
    have hparameters : refiningDiamond.code.parameters = [⟨"p"⟩] := by decide +kernel
    by_cases hx : x = ⟨"p"⟩ <;> simp [atThree, hparameters, hx]
  have htest : Arrives refiningDiamond ⟨0, 3⟩ atThree none :=
    Arrives.past_empty (e := ⟨⟨0, 0⟩, ⟨0, 3⟩, .unconditional⟩) hentry (by decide +kernel)
      (by decide +kernel) (fun _ _ _ _ h => nomatch h)
  have hnodes : refiningDiamond.nodesOf ⟨0, 3⟩ =
      [⟨⟨0, 0⟩, ⟨0, 3⟩, .localRead ⟨"p"⟩, []⟩, ⟨⟨0, 1⟩, ⟨0, 3⟩, .literal (.integer 3), []⟩,
        ⟨⟨0, 2⟩, ⟨0, 3⟩, .comparison .equal ⟨0, 0⟩ ⟨0, 1⟩, []⟩] := by
    decide +kernel
  obtain ⟨σ, hruns, hlocals, hresults⟩ : ∃ σ, atThree.Runs (refiningDiamond.nodesOf ⟨0, 3⟩) σ ∧
      σ.locals ⟨"p"⟩ = some (.integer 3) ∧ σ.results ⟨0, 0⟩ = σ.results ⟨0, 1⟩ := by
    rw [hnodes]
    have hread := @Machine.Runs.snoc Unit atThree [] atThree ⟨⟨0, 0⟩, ⟨0, 3⟩, .localRead ⟨"p"⟩, []⟩
      (.integer 3) .nil rfl
    have hliteral := @Machine.Runs.snoc Unit atThree _ _
      ⟨⟨0, 1⟩, ⟨0, 3⟩, .literal (.integer 3), []⟩ (.integer 3) hread rfl
    exact ⟨_, @Machine.Runs.snoc Unit atThree _ _
      ⟨⟨0, 2⟩, ⟨0, 3⟩, .comparison .equal ⟨0, 0⟩ ⟨0, 1⟩, []⟩ (.other ()) hliteral trivial, rfl, rfl⟩
  have hbranch : Arrives refiningDiamond ⟨0, 4⟩ σ (some true) := by
    refine .along (e := ⟨⟨0, 3⟩, ⟨0, 4⟩, .unconditional⟩) htest hruns (by decide +kernel)
      (fun _ _ _ _ h => nomatch h) ?_
    rw [hnodes]
    exact ⟨true, rfl, iff_of_true rfl hresults⟩
  have hthen : Arrives refiningDiamond ⟨0, 5⟩ σ none := by
    refine Arrives.past_empty (e := ⟨⟨0, 4⟩, ⟨0, 5⟩, .onTrue⟩) hbranch (by decide +kernel)
      (by decide +kernel) ?_
    rintro block outcome - - ⟨⟩
    exact ⟨fun _ => rfl, nofun⟩
  exact ⟨refiningDiamond_built, refiningDiamond_blockLocal, p, hp, σ, hlocals, hthen,
    report_accounts_for_executions (.default .debug) refiningDiamond refiningDiamond_built
      refiningDiamond_blockLocal p hp ⟨0, 5⟩ σ none hthen⟩

end FlowFixpoint.Constants
