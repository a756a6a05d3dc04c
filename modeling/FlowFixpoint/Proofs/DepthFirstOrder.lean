/-
# FlowFixpoint.Proofs.DepthFirstOrder — the finishing order and reachability.

A depth-first walk finishes exactly the vertices that its roots lead to, and each of them once. At
any moment the open vertices, entered and not yet left, all lead to the vertex explored next. When a
vertex is left, a successor of it has been left before or is still open, and then leads back to it.

For the flow of a graph: the blocks of the finishing order are the blocks that flow reaches, and an
edge between them goes up in the order unless it closes a cycle. So where flow goes round nowhere
the order is topological, and the converse holds as well.
-/
import FlowFixpoint.Proofs.FinishingOrder
import Mathlib.Data.Set.Card
import Mathlib.Logic.Relation

namespace FlowFixpoint

open Relation (ReflTransGen TransGen)

/-! ## Open vertices -/

namespace Trail

variable {α : Type} {next : α → List α} {t t' t'' : Trail α} {v x : α} {vs : List α}

/-- One vertex leads to another along successors. -/
def Leads (next : α → List α) : α → α → Prop := ReflTransGen fun x y => y ∈ next x

/-- A vertex is open from when it is entered until it is left. -/
def Open (t : Trail α) (x : α) : Prop := x ∈ t.seen ∧ x ∉ t.finished

/-- A walk that goes on closes whatever it opens. -/
theorem Extends.open_of_open (h : Extends next t t') (hx : t'.Open x) : t.Open x := by
  refine ⟨(h.leaves x hx.1).resolve_right hx.2, fun hfinished => ?_⟩
  exact hx.2 (h.finished x hfinished)

/-- Each vertex is left once, after it has been entered, and when it is left each of its successors
has been left before or leads back to it. -/
structure Ordered (next : α → List α) (t : Trail α) : Prop where
  seen : ∀ x ∈ t.finished, x ∈ t.seen
  nodup : t.finished.Nodup
  successors : ∀ later x earlier, t.finished = later ++ x :: earlier →
    ∀ y ∈ next x, y ∈ earlier ∨ Leads next y x

/-- A walk goes on to vertices that some of `vs` lead to, and leaves only what it has entered. -/
structure Enters (next : α → List α) (vs : List α) (t t' : Trail α) : Prop where
  reached : ∀ x ∈ t'.seen, x ∈ t.seen ∨ ∃ v ∈ vs, Leads next v x
  fresh : ∀ x ∈ t'.finished, x ∈ t.finished ∨ x ∉ t.seen

theorem Enters.refl (next : α → List α) (vs : List α) (t : Trail α) : Enters next vs t t where
  reached _ h := .inl h
  fresh _ h := .inl h

theorem Enters.cons (h : Enters next [v] t t') (hext : Extends next t t')
    (h' : Enters next vs t' t'') : Enters next (v :: vs) t t'' where
  reached x hx := by
    rcases h'.reached x hx with hx | ⟨w, hw, hleads⟩
    · refine (h.reached x hx).imp_right ?_
      rintro ⟨w, hw, hleads⟩
      exact ⟨w, by simp [List.mem_singleton.mp hw], hleads⟩
    · exact .inr ⟨w, List.mem_cons_of_mem v hw, hleads⟩
  fresh x hx := by
    rcases h'.fresh x hx with hx | hx
    · exact h.fresh x hx
    · exact .inr fun hseen => hx (hext.seen x hseen)

/-- A walk that goes on leaves open what was open. -/
theorem Enters.open_of_open (h : Enters next vs t t') (hx : t.Open x) (hext : Extends next t t') :
    t'.Open x := by
  refine ⟨hext.seen x hx.1, fun hfinished => ?_⟩
  rcases h.fresh x hfinished with hdone | hunseen
  · exact hx.2 hdone
  · exact hunseen hx.1

/-- Entering a vertex. -/
theorem Ordered.enter (h : Ordered next t) (v : α) :
    Ordered next { t with seen := v :: t.seen } where
  seen x hx := List.mem_cons_of_mem v (h.seen x hx)
  nodup := h.nodup
  successors := h.successors

/-- A vertex is open once it is entered. -/
theorem Ordered.open_enter (h : Ordered next t) (hfresh : v ∉ t.seen) :
    Open { t with seen := v :: t.seen } v :=
  ⟨List.mem_cons_self, fun hv => hfresh (h.seen v hv)⟩

/-- Below a vertex the open vertices are those from before and the vertex itself. -/
theorem leads_of_open_enter (hopen : ∀ x, t.Open x → Leads next x v) :
    ∀ x, Open { t with seen := v :: t.seen } x → Leads next x v := by
  rintro x ⟨hx, hunfinished⟩
  rcases List.mem_cons.mp hx with rfl | hx
  · exact .refl
  · exact hopen x ⟨hx, hunfinished⟩

/-- Leaving the vertex that was entered last. -/
theorem Ordered.finish (h : Ordered next t') (hv : v ∈ t'.seen) (hfresh : v ∉ t'.finished)
    (hnext : ∀ y ∈ next v, y ∈ t'.seen) (hopen : ∀ x, t'.Open x → Leads next x v) :
    Ordered next { t' with finished := v :: t'.finished } where
  seen := List.forall_mem_cons.mpr ⟨hv, h.seen⟩
  nodup := List.nodup_cons.mpr ⟨hfresh, h.nodup⟩
  successors later x earlier hsplit y hy := by
    cases later with
    | nil =>
      -- `v` itself: a successor that is not finished is open
      obtain ⟨rfl, rfl⟩ := List.cons.inj hsplit
      by_cases hdone : y ∈ t'.finished
      · exact .inl hdone
      · exact .inr (hopen y ⟨hnext y hy, hdone⟩)
    | cons first later =>
      obtain ⟨-, hrest⟩ := List.cons.inj hsplit
      exact h.successors later x earlier hrest y hy

variable [DecidableEq α] {all : List α}

/-- Exploring from several vertices, given what exploring from one does. -/
theorem ordered_foldl (hall : ∀ x ∈ all, ∀ y ∈ next x, y ∈ all) {depth : ℕ}
    (h : ∀ (t : Trail α) (v : α), v ∈ all → (unseen all t).length ≤ depth → Ordered next t →
      (∀ x, t.Open x → Leads next x v) →
        Ordered next (explore next depth t v) ∧ Enters next [v] t (explore next depth t v))
    (vs : List α) (hvs : ∀ v ∈ vs, v ∈ all) (t : Trail α) (hdepth : (unseen all t).length ≤ depth)
    (ht : Ordered next t) (hopen : ∀ x, t.Open x → ∀ v ∈ vs, Leads next x v) :
    Ordered next (vs.foldl (explore next depth) t) ∧
      Enters next vs t (vs.foldl (explore next depth) t) := by
  induction vs generalizing t with
  | nil => exact ⟨ht, .refl next [] t⟩
  | cons v vs ih =>
    obtain ⟨hv, hvs⟩ := List.forall_mem_cons.mp hvs
    obtain ⟨hext, -⟩ := extends_explore hall depth t v hv hdepth
    obtain ⟨hfirst, henters⟩ := h t v hv hdepth ht fun x hx => hopen x hx v List.mem_cons_self
    obtain ⟨hrest, henters'⟩ := ih hvs (explore next depth t v)
      (Nat.le_trans (unseen_length_le hext.seen) hdepth) hfirst
      fun x hx w hw => hopen x (hext.open_of_open hx) w (List.mem_cons_of_mem v hw)
    exact ⟨hrest, henters.cons hext henters'⟩

/-- Exploring from a vertex that all open ones lead to keeps the order. -/
theorem ordered_explore (hall : ∀ x ∈ all, ∀ y ∈ next x, y ∈ all) (depth : ℕ) (t : Trail α) (v : α)
    (hv : v ∈ all) (hdepth : (unseen all t).length ≤ depth) (ht : Ordered next t)
    (hopen : ∀ x, t.Open x → Leads next x v) :
    Ordered next (explore next depth t v) ∧ Enters next [v] t (explore next depth t v) := by
  induction depth generalizing t v with
  | zero => exact ⟨ht, .refl next [v] t⟩
  | succ depth ih =>
    rw [explore]
    split
    · exact ⟨ht, .refl next [v] t⟩
    · next hfresh =>
      have hlt := unseen_length_lt hv hfresh
      have hopen' := leads_of_open_enter hopen
      obtain ⟨hext, hnext⟩ := extends_foldl (extends_explore hall depth) (next v) (hall v hv)
        { t with seen := v :: t.seen } (by omega)
      obtain ⟨hordered, henters⟩ := ordered_foldl hall ih (next v) (hall v hv)
        { t with seen := v :: t.seen } (by omega) (ht.enter v)
        fun x hx w hw => (hopen' x hx).tail hw
      have hself := henters.open_of_open (ht.open_enter hfresh) hext
      refine ⟨hordered.finish hself.1 hself.2 hnext
        fun x hx => hopen' x (hext.open_of_open hx), ?_, ?_⟩
      · intro x hx
        rcases henters.reached x hx with hx | ⟨w, hw, hleads⟩
        · rcases List.mem_cons.mp hx with rfl | hx
          · exact .inr ⟨x, List.mem_singleton_self x, .refl⟩
          · exact .inl hx
        · exact .inr ⟨v, List.mem_singleton_self v, .head hw hleads⟩
      · intro x hx
        rcases List.mem_cons.mp hx with rfl | hx
        · exact .inr hfresh
        · exact (henters.fresh x hx).imp_right fun hx hseen => hx (List.mem_cons_of_mem v hseen)

/-- A walk from the roots finishes what they lead to, in order. -/
theorem ordered_ofRoots {roots : List α} (hall : ∀ x ∈ all, ∀ y ∈ next x, y ∈ all)
    (hroots : ∀ v ∈ roots, v ∈ all) {depth : ℕ} (hdepth : all.length ≤ depth) :
    Ordered next (ofRoots next depth roots) ∧ ∀ x, x ∈ (ofRoots next depth roots).finished ↔
      ∃ v ∈ roots, Leads next v x := by
  obtain ⟨hordered, henters⟩ := ordered_foldl hall (ordered_explore hall depth) roots hroots {}
    (Nat.le_trans (List.length_filter_le _ _) hdepth)
    ⟨by simp, List.nodup_nil, by simp⟩ (fun x hx => absurd hx.1 List.not_mem_nil)
  refine ⟨hordered, fun x => ⟨fun hx => ?_, ?_⟩⟩
  · exact (henters.reached x (hordered.seen x hx)).resolve_left List.not_mem_nil
  · rintro ⟨v, hv, hleads⟩
    obtain ⟨hstarts, hclosed⟩ := ofRoots_finished hall hroots hdepth
    induction hleads with
    | refl => exact hstarts v hv
    | tail _ hstep ih => exact hclosed _ ih _ hstep

end Trail

/-! ## Blocks that flow reaches -/

namespace Graph

/-- Flow goes straight from one block to another. -/
def FlowsTo (g : Graph) (d : Direction) (b c : BlockId) : Prop :=
  ∃ e ∈ g.edges, d.tail e = b ∧ d.head e = c

/-- Flow from the start blocks reaches a block. -/
def Reaches (g : Graph) (d : Direction) (b : BlockId) : Prop :=
  ∃ r ∈ d.starts g, ReflTransGen (g.FlowsTo d) r b

/-- Where flow reaches, it goes round nowhere. -/
def Acyclic (g : Graph) (d : Direction) : Prop :=
  ∀ b, g.Reaches d b → ¬ TransGen (g.FlowsTo d) b b

theorem Reaches.tail {g : Graph} {d : Direction} {b c : BlockId} (hb : g.Reaches d b)
    (hbc : g.FlowsTo d b c) : g.Reaches d c := by
  obtain ⟨r, hr, hpath⟩ := hb
  exact ⟨r, hr, hpath.tail hbc⟩

/-- Where flow reaches, it starts or comes from another block that it reaches. -/
theorem Reaches.cases {g : Graph} {d : Direction} {b : BlockId} (hb : g.Reaches d b) :
    b ∈ d.starts g ∨ ∃ e ∈ g.edges, g.Reaches d (d.tail e) ∧ d.head e = b := by
  obtain ⟨r, hr, hpath⟩ := hb
  rcases hpath.cases_tail with rfl | ⟨c, hpath, e, he, rfl, hhead⟩
  · exact .inl hr
  · exact .inr ⟨e, he, ⟨r, hr, hpath⟩, hhead⟩

/-- In a list without repetitions, what stands behind an entry has a higher index. -/
theorem idxOf_lt_idxOf_of_nodup {before after : List BlockId} {b c : BlockId}
    (h : (before ++ b :: after).Nodup) (hc : c ∈ after) :
    (before ++ b :: after).idxOf b < (before ++ b :: after).idxOf c := by
  obtain ⟨-, hnodup, hdisjoint⟩ := List.nodup_append.mp h
  have hb : b ∉ before := fun hb => hdisjoint b hb b List.mem_cons_self rfl
  have hc' : c ∉ before := fun hb => hdisjoint c hb c (List.mem_cons_of_mem b hc) rfl
  have hne : b ≠ c := fun hbc => (List.nodup_cons.mp hnodup).1 (hbc ▸ hc)
  rw [List.idxOf_append_of_notMem hb, List.idxOf_append_of_notMem hc', List.idxOf_cons_self,
    List.idxOf_cons_ne after hne]
  omega

namespace WellFormed

variable {g : Graph} (hg : g.WellFormed) {d : Direction}

include hg

/-- Flow reaches only blocks of the graph. -/
theorem exists_block_of_reaches {b : BlockId} (h : g.Reaches d b) :
    ∃ block, g.block? b = some block := by
  rcases h.cases with hstart | ⟨e, he, -, rfl⟩
  · obtain ⟨block, _, hblock, -⟩ := hg.kind_of_starts hstart
    exact ⟨block, hblock⟩
  · exact hg.exists_block_head d he

omit hg in
/-- The walk goes where flow goes. -/
theorem leads_flowOf (d : Direction) :
    Trail.Leads (g.flowOf d).next = ReflTransGen (g.FlowsTo d) := by
  have hflow : (fun b c => c ∈ (g.flowOf d).next b) = g.FlowsTo d := by
    funext b c
    exact propext mem_next_flowOf
  rw [Trail.Leads, hflow]

/-- The finishing order comes from a walk along the flow. -/
theorem ordered_walk (d : Direction) :
    Trail.Ordered (g.flowOf d).next
        (Trail.ofRoots (g.flowOf d).next g.blocks.size (d.starts g)) ∧
      ∀ b, b ∈ g.finishedOf d ↔ g.Reaches d b := by
  have hdepth : (g.blocks.toList.map Block.id).length ≤ g.blocks.size := by simp
  obtain ⟨hordered, hmem⟩ :=
    Trail.ordered_ofRoots (hg.blockIds_closed d) (hg.starts_mem_blockIds d) hdepth
  refine ⟨hordered, ?_⟩
  rw [leads_flowOf] at hmem
  exact hmem

theorem nodup_finishedOf (d : Direction) : (g.finishedOf d).Nodup := (hg.ordered_walk d).1.nodup

/-- The finishing order holds the blocks that flow reaches. -/
theorem mem_finishedOf {b : BlockId} : b ∈ g.finishedOf d ↔ g.Reaches d b :=
  (hg.ordered_walk d).2 b

/-- Along an edge the finishing order rises, or the head of the edge leads back to its tail. -/
theorem rises_or_returns {e : Edge} (he : e ∈ g.edges) (htail : g.Reaches d (d.tail e)) :
    (g.finishedOf d).idxOf (d.tail e) < (g.finishedOf d).idxOf (d.head e) ∨
      ReflTransGen (g.FlowsTo d) (d.head e) (d.tail e) := by
  obtain ⟨later, earlier, hsplit⟩ := List.append_of_mem (hg.mem_finishedOf.mpr htail)
  have hnodup := hg.nodup_finishedOf d
  rw [← leads_flowOf]
  refine ((hg.ordered_walk d).1.successors later _ earlier hsplit (d.head e)
    (mem_next_flowOf.mpr ⟨e, he, rfl, rfl⟩)).imp_left fun hearlier => ?_
  rw [hsplit] at hnodup ⊢
  exact idxOf_lt_idxOf_of_nodup hnodup hearlier

/-- Flow goes round nowhere exactly when the finishing order rises along every edge. -/
theorem acyclic_iff : g.Acyclic d ↔ ∀ e ∈ g.edges, d.tail e ∈ g.finishedOf d →
    (g.finishedOf d).idxOf (d.tail e) < (g.finishedOf d).idxOf (d.head e) := by
  constructor
  · intro hacyclic e he htail
    have hreached := hg.mem_finishedOf.mp htail
    refine (hg.rises_or_returns he hreached).resolve_right fun hback => ?_
    exact hacyclic _ hreached (.head' ⟨e, he, rfl, rfl⟩ hback)
  · intro hrises b hb hround
    have hclimbs : ∀ c, TransGen (g.FlowsTo d) b c →
        g.Reaches d c ∧ (g.finishedOf d).idxOf b < (g.finishedOf d).idxOf c := by
      intro c hpath
      induction hpath with
      | single hstep =>
        obtain ⟨e, he, rfl, rfl⟩ := hstep
        exact ⟨hb.tail ⟨e, he, rfl, rfl⟩, hrises e he (hg.mem_finishedOf.mpr hb)⟩
      | tail _ hstep ih =>
        obtain ⟨e, he, rfl, rfl⟩ := hstep
        exact ⟨ih.1.tail ⟨e, he, rfl, rfl⟩,
          ih.2.trans (hrises e he (hg.mem_finishedOf.mpr ih.1))⟩
    exact Nat.lt_irrefl _ (hclimbs b hround).2

/-- There are as many blocks that flow reaches as the finishing order has entries. -/
theorem ncard_reaches (d : Direction) :
    {b | g.Reaches d b}.ncard = (g.finishedOf d).length := by
  have hset : {b | g.Reaches d b} = ((g.finishedOf d).toFinset : Set BlockId) := by
    ext b
    simp [hg.mem_finishedOf]
  rw [hset, Set.ncard_coe_finset, List.toFinset_card_of_nodup (hg.nodup_finishedOf d)]

end WellFormed

end Graph

end FlowFixpoint
