/-
# FlowFixpoint.Proofs.RankedSet — a worklist in use is a ranked set.

`Ahead` says which of two blocks a block order puts first, without ranks: blocks of the order as they
stand there, then all others by identifier. In an order without repetitions this is a strict total
order, and it is the one in which the queue keeps its tickets. So the queue, read as a list of blocks,
is sorted, holds each pending block once, and a pop takes its head.

`Log` is a worklist together with what has been done to it. Whatever the pushes and pops were, a
block is pending exactly if it has been pushed and not popped since, and only such a block is popped.
-/
import FlowFixpoint.Proofs.Pending
import Mathlib.Data.List.Basic
import Mathlib.Order.Defs.Unbundled

namespace FlowFixpoint

/-! ## Which block comes first -/

/-- Of two blocks of an order the one that stands first there is ahead; blocks of the order are ahead
of all others, and these come by identifier. -/
inductive Ahead (order : List BlockId) (b c : BlockId) : Prop
  | listed : [b, c].Sublist order → Ahead order b c
  | unlisted : b ∈ order → c ∉ order → Ahead order b c
  | byIdent : b ∉ order → c ∉ order → compare b c = .lt → Ahead order b c

theorem Ticket.compare_eq_lt {s t : Ticket} : compare s t = .lt ↔
    s.rank < t.rank ∨ s.rank = t.rank ∧ compare s.block t.block = .lt := by
  have hthen : compare s t = (compare s.rank t.rank).then (compare s.block t.block) := rfl
  rw [hthen, Ordering.then_eq_lt, Nat.compare_eq_lt, Nat.compare_eq_eq]

section Order

variable {order : List BlockId} {b c : BlockId}

/-- Two entries of a list without repetitions have their indices in the order in which they stand. -/
theorem idxOf_lt_of_sublist (hnodup : order.Nodup) (h : [b, c].Sublist order) :
    order.idxOf b < order.idxOf c := by
  obtain ⟨before, after, rfl, hb, hc⟩ := List.cons_sublist_iff.mp h
  have hc' : c ∉ before := fun hmem =>
    (List.nodup_append.mp hnodup).2.2 c hmem c (List.singleton_sublist.mp hc) rfl
  have hlt : before.idxOf b < before.length := List.idxOf_lt_length_iff.mpr hb
  rw [List.idxOf_append_of_mem hb, List.idxOf_append_of_notMem hc']
  omega

theorem sublist_of_idxOf_lt (hc : c ∈ order) (hlt : order.idxOf b < order.idxOf c) :
    [b, c].Sublist order := by
  have hb : b ∈ order :=
    List.idxOf_lt_length_iff.mp (Nat.lt_trans hlt (List.idxOf_lt_length_iff.mpr hc))
  have hsplit := List.take_append_drop (order.idxOf c) order
  have hdrop : c ∈ order.drop (order.idxOf c) := by
    rw [← hsplit, List.mem_append] at hc
    refine hc.resolve_left fun htake => ?_
    exact Nat.lt_irrefl _ ((List.mem_take_iff_idxOf_lt (List.mem_of_mem_take htake)).mp htake)
  exact List.cons_sublist_iff.mpr ⟨_, _, hsplit.symm, (List.mem_take_iff_idxOf_lt hb).mpr hlt,
    List.singleton_sublist.mpr hdrop⟩

/-- A block whose ticket comes first is ahead. -/
theorem ahead_of_compare (h : compare (⟨order.idxOf b, b⟩ : Ticket) ⟨order.idxOf c, c⟩ = .lt) :
    Ahead order b c := by
  rw [Ticket.compare_eq_lt] at h
  by_cases hc : c ∈ order
  · rcases h with hlt | ⟨heq, hlt⟩
    · exact .listed (sublist_of_idxOf_lt hc hlt)
    · cases (List.idxOf_inj hc).mp heq.symm
      simp at hlt
  · have hlength := List.idxOf_eq_length hc
    rcases h with hlt | ⟨heq, hlt⟩
    · exact .unlisted (List.idxOf_lt_length_iff.mp (hlength ▸ hlt)) hc
    · refine .byIdent (fun hb => ?_) hc hlt
      exact Nat.ne_of_lt (List.idxOf_lt_length_iff.mpr hb) (heq.trans hlength)

/-- In an order without repetitions, to be ahead is to have the ticket that comes first. -/
theorem ahead_iff_compare (hnodup : order.Nodup) : Ahead order b c ↔
    compare (⟨order.idxOf b, b⟩ : Ticket) ⟨order.idxOf c, c⟩ = .lt := by
  refine ⟨fun h => Ticket.compare_eq_lt.mpr ?_, ahead_of_compare⟩
  cases h with
  | listed hsub => exact .inl (idxOf_lt_of_sublist hnodup hsub)
  | unlisted hb hc => exact .inl (List.idxOf_eq_length hc ▸ List.idxOf_lt_length_iff.mpr hb)
  | byIdent hb hc hlt =>
    exact .inr ⟨(List.idxOf_eq_length hb).trans (List.idxOf_eq_length hc).symm, hlt⟩

theorem isStrictTotalOrder_ahead (hnodup : order.Nodup) :
    IsStrictTotalOrder BlockId (Ahead order) where
  irrefl b h := by
    simp [ahead_iff_compare hnodup] at h
  trans b c d := by
    simp only [ahead_iff_compare hnodup]
    exact Std.TransCmp.lt_trans
  trichotomous b c hbc hcb := by
    rw [ahead_iff_compare hnodup] at hbc hcb
    rw [← Std.OrientedCmp.gt_iff_lt] at hcb
    cases hcompare : compare (⟨order.idxOf b, b⟩ : Ticket) ⟨order.idxOf c, c⟩ with
    | lt => exact absurd hcompare hbc
    | gt => exact absurd hcompare hcb
    | eq => exact congrArg Ticket.block (Std.LawfulEqCmp.compare_eq_iff_eq.mp hcompare)

end Order

/-! ## The queue as a list of blocks -/

namespace Worklist

/-- The blocks of the queue, first to last. -/
def blocks (w : Worklist) : List BlockId := w.queue.toList.map Ticket.block

variable {w rest : Worklist} {b : BlockId}

theorem Sound.mem_blocks (h : w.Sound) : b ∈ w.blocks ↔ b ∈ w.queued := by
  simp only [blocks, List.mem_map, Std.ExtTreeSet.mem_toList]
  constructor
  · rintro ⟨ticket, hticket, rfl⟩
    exact ((h ticket).mp hticket).1
  · intro hb
    exact ⟨⟨w.rank b, b⟩, (h _).mpr ⟨hb, rfl⟩, rfl⟩

/-- The queue is sorted. -/
theorem Sound.pairwise_blocks (h : w.Sound) : w.blocks.Pairwise (Ahead w.order) := by
  have hticket : ∀ t ∈ w.queue.toList, t = ⟨w.order.idxOf t.block, t.block⟩ := by
    intro t ht
    have hrank := ((h t).mp (Std.ExtTreeSet.mem_toList.mp ht)).2
    rw [show w.order.idxOf t.block = t.rank from hrank.symm]
  rw [blocks, List.pairwise_map]
  refine Std.ExtTreeSet.ordered_toList.imp_of_mem fun {s t} hs ht hlt => ahead_of_compare ?_
  rw [← hticket s hs, ← hticket t ht]
  exact hlt

theorem Sound.nodup_blocks (h : w.Sound) (hnodup : w.order.Nodup) : w.blocks.Nodup := by
  refine h.pairwise_blocks.imp ?_
  rintro b c hahead rfl
  exact (isStrictTotalOrder_ahead hnodup).irrefl b hahead

theorem push_of_mem (hb : b ∈ w.queued) : w.push b = w := by
  rw [push, if_pos (Std.ExtTreeSet.contains_iff_mem.mpr hb)]

theorem queued_push (w : Worklist) (b : BlockId) : (w.push b).queued = w.queued.insert b := by
  refine Std.ExtTreeSet.ext_mem fun c => ?_
  rw [mem_push, Std.ExtTreeSet.mem_insert, Std.LawfulEqCmp.compare_eq_iff_eq, @eq_comm _ b c]

/-- If one more block is pending in one worklist than in another, one more stands in its queue. -/
theorem Sound.perm_blocks_cons (h : w.Sound) (hrest : rest.Sound) (horder : rest.order = w.order)
    (hnodup : w.order.Nodup) (hb : b ∉ rest.queued)
    (hmem : ∀ c, c ∈ w.queued ↔ c = b ∨ c ∈ rest.queued) : w.blocks.Perm (b :: rest.blocks) := by
  have hcons : (b :: rest.blocks).Nodup := List.nodup_cons.mpr
    ⟨fun hb' => hb (hrest.mem_blocks.mp hb'), hrest.nodup_blocks (horder ▸ hnodup)⟩
  refine (List.perm_ext_iff_of_nodup (h.nodup_blocks hnodup) hcons).mpr fun c => ?_
  rw [h.mem_blocks, List.mem_cons, hrest.mem_blocks, hmem]

/-- A pop takes a block that is ahead of all others that are pending. -/
theorem Sound.ahead_of_pop? (h : w.Sound) (hpop : w.pop? = some (b, rest)) {c : BlockId}
    (hc : c ∈ w.queued) (hne : c ≠ b) : Ahead w.order b c := by
  obtain ⟨ticket, hhead, heq⟩ := Option.map_eq_some_iff.mp hpop
  cases heq
  obtain ⟨others, hothers⟩ := List.head?_eq_some_iff.mp hhead
  have hblocks : w.blocks = ticket.block :: others.map Ticket.block := by
    rw [blocks, hothers, List.map_cons]
  have hsorted := h.pairwise_blocks
  have hmem := h.mem_blocks.mpr hc
  rw [hblocks] at hsorted hmem
  exact List.rel_of_pairwise_cons hsorted ((List.mem_cons.mp hmem).resolve_left hne)

theorem Sound.queued_of_pop? (h : w.Sound) (hpop : w.pop? = some (b, rest)) :
    rest.queued = w.queued.erase b := by
  refine Std.ExtTreeSet.ext_mem fun c => ?_
  rw [(h.pop?_eq_some hpop).2.2 c, Std.ExtTreeSet.mem_erase, ne_eq, ne_eq,
    Std.LawfulEqCmp.compare_eq_iff_eq, @eq_comm _ b c]

/-- A pop takes the head of the queue and leaves the tail. -/
theorem Sound.blocks_of_pop? (h : w.Sound) (hnodup : w.order.Nodup)
    (hpop : w.pop? = some (b, rest)) : w.blocks = b :: rest.blocks := by
  obtain ⟨hb, hrest, hqueued⟩ := h.pop?_eq_some hpop
  have horder := order_pop? hpop
  have hperm : w.blocks.Perm (b :: rest.blocks) := by
    refine h.perm_blocks_cons hrest horder hnodup (fun hmem => ((hqueued b).mp hmem).1 rfl) ?_
    intro c
    rw [hqueued]
    by_cases hcb : c = b
    · simp [hcb, hb]
    · simp [hcb]
  have hsorted : (b :: rest.blocks).Pairwise (Ahead w.order) := by
    refine List.pairwise_cons.mpr ⟨fun c hc => ?_, horder ▸ hrest.pairwise_blocks⟩
    obtain ⟨hcb, hc'⟩ := (hqueued c).mp (hrest.mem_blocks.mp hc)
    exact h.ahead_of_pop? hpop hc' hcb
  -- a strict order sorts the same blocks in one way only
  have hstrict := isStrictTotalOrder_ahead hnodup
  refine List.Perm.eq_of_pairwise (fun c d _ _ hcd hdc => ?_) h.pairwise_blocks hsorted hperm
  exact absurd (hstrict.trans c d c hcd hdc) (hstrict.irrefl c)

/-- A worklist is the set of its pending blocks, ranked by an order. -/
structure IsRankedSet (order : List BlockId) (w : Worklist) : Prop where
  /-- The queue and the set hold the same blocks. -/
  same : ∀ b, b ∈ w.blocks ↔ b ∈ w.queued
  once : w.blocks.Nodup
  push_pending : ∀ b, b ∈ w.queued → w.push b = w
  push_absent : ∀ b, b ∉ w.queued →
    (w.push b).queued = w.queued.insert b ∧ (w.push b).blocks.Perm (b :: w.blocks)
  pop_none : w.pop? = none ↔ ∀ b, b ∉ w.queued
  /-- A pop takes out the pending block that is ahead of all others, and nothing else. -/
  pop_some : ∀ b rest, w.pop? = some (b, rest) → b ∈ w.queued ∧
    (∀ c, c ∈ w.queued → c ≠ b → Ahead order b c) ∧
    rest.queued = w.queued.erase b ∧ w.blocks = b :: rest.blocks

theorem Sound.isRankedSet (h : w.Sound) (hnodup : w.order.Nodup) : w.IsRankedSet w.order where
  same _ := h.mem_blocks
  once := h.nodup_blocks hnodup
  push_pending _ := push_of_mem
  push_absent b hb := by
    have hnodup' : (w.push b).order.Nodup := by
      rw [order_push]
      exact hnodup
    exact ⟨queued_push w b,
      (h.push b).perm_blocks_cons h (order_push w b).symm hnodup' hb fun _ => mem_push⟩
  pop_none := h.pop?_eq_none_iff
  pop_some _ _ hpop := ⟨(h.pop?_eq_some hpop).1, fun _ => h.ahead_of_pop? hpop,
    h.queued_of_pop? hpop, h.blocks_of_pop? hnodup hpop⟩

/-! ## What has been done -/

/-- A use that is made of a worklist. -/
inductive Use where
  | push (b : BlockId)
  | pop

/-- What came of a use. -/
inductive Event where
  | pushed (b : BlockId)
  | popped (b : BlockId)
  | nothingPending
deriving DecidableEq

/-- The use that an event came of. -/
def Event.use : Event → Use
  | .pushed b => .push b
  | .popped _ | .nothingPending => .pop

/-- A worklist with what has been done to it, oldest first. -/
structure Log where
  events : List Event := []
  pending : Worklist

namespace Log

/-- Makes a use and notes what came of it; a pop of nothing changes nothing else. -/
def use (log : Log) : Use → Log
  | .push b => { events := log.events ++ [.pushed b], pending := log.pending.push b }
  | .pop =>
    match log.pending.pop? with
    | none => { log with events := log.events ++ [.nothingPending] }
    | some (b, rest) => { events := log.events ++ [.popped b], pending := rest }

/-- A new worklist after some uses. -/
def after (order : List BlockId) (uses : List Use) : Log :=
  uses.foldl use { pending := .ofOrder order }

end Log

/-- The block has been pushed and not popped since. -/
def Outstanding (events : List Event) (b : BlockId) : Prop :=
  ∃ before since, events = before ++ .pushed b :: since ∧ .popped b ∉ since

section Outstanding

variable {events before between : List Event} {e : Event}

theorem not_outstanding_nil : ¬ Outstanding [] b := by
  rintro ⟨before, since, heq, -⟩
  simp at heq

/-- One more event decides, unless it is about something else. -/
theorem outstanding_concat : Outstanding (events ++ [e]) b ↔
    e = .pushed b ∨ e ≠ .popped b ∧ Outstanding events b := by
  constructor
  · rintro ⟨before, since, heq, hsince⟩
    rcases List.eq_nil_or_concat since with rfl | ⟨since, last, rfl⟩
    · exact .inl (List.append_singleton_inj.mp heq).2
    · rw [List.concat_eq_append] at heq hsince
      rw [← List.cons_append, ← List.append_assoc] at heq
      obtain ⟨rfl, rfl⟩ := List.append_singleton_inj.mp heq
      refine .inr ⟨fun hlast => hsince (by simp [hlast]), before, since, rfl, ?_⟩
      exact fun hmem => hsince (List.mem_append_left _ hmem)
  · rintro (rfl | ⟨hne, before, since, rfl, hsince⟩)
    · exact ⟨events, [], rfl, by simp⟩
    · refine ⟨before, since ++ [e], by simp, ?_⟩
      simp [hsince, hne.symm]

/-- A block that is outstanding after a pop of it has been pushed since the pop. -/
theorem pushed_mem_of_outstanding (h : Outstanding (before ++ .popped b :: between) b) :
    .pushed b ∈ between := by
  obtain ⟨earlier, since, heq, hsince⟩ := h
  -- the last push stands behind the pop, since no pop of the block stands behind the push
  rcases List.append_eq_append_iff.mp heq with ⟨middle, rfl, hrest⟩ | ⟨middle, rfl, hrest⟩
  · cases middle with
    | nil => cases hrest
    | cons first middle =>
      obtain ⟨-, rfl⟩ := List.cons.inj hrest
      simp
  · cases middle with
    | nil => cases hrest
    | cons first middle =>
      obtain ⟨-, rfl⟩ := List.cons.inj hrest
      exact absurd (by simp) hsince

end Outstanding

/-! ## Pushes and pops in any order -/

namespace Log

/-- The worklist of a log is sound, has what is outstanding pending, and has popped only what was. -/
structure Faithful (order : List BlockId) (log : Log) : Prop where
  order_eq : log.pending.order = order
  sound : log.pending.Sound
  pending_iff : ∀ b, b ∈ log.pending.queued ↔ Outstanding log.events b
  popped : ∀ b before later, log.events = before ++ .popped b :: later → Outstanding before b

variable {order : List BlockId} {log : Log}

theorem faithful_nil (order : List BlockId) : Faithful order { pending := .ofOrder order } where
  order_eq := rfl
  sound := sound_ofOrder order
  pending_iff b := by simp [ofOrder, not_outstanding_nil]
  popped b before later heq := by simp at heq

/-- Popped blocks stay accounted for if one more event is a pop of an outstanding block or no pop. -/
theorem Faithful.popped_concat (h : Faithful order log) {e : Event}
    (he : ∀ b, e = .popped b → Outstanding log.events b) (b : BlockId) (before later : List Event)
    (heq : log.events ++ [e] = before ++ .popped b :: later) : Outstanding before b := by
  rcases List.eq_nil_or_concat later with rfl | ⟨later, last, rfl⟩
  · obtain ⟨rfl, rfl⟩ := List.append_singleton_inj.mp heq
    exact he b rfl
  · rw [List.concat_eq_append, ← List.cons_append, ← List.append_assoc] at heq
    exact h.popped b before later (List.append_singleton_inj.mp heq).1

/-- Every use keeps a log faithful. -/
theorem Faithful.use (h : Faithful order log) (u : Use) : Faithful order (log.use u) := by
  cases u with
  | push b =>
    exact {
      order_eq := (order_push log.pending b).trans h.order_eq
      sound := h.sound.push b
      pending_iff := fun c => by
        simp only [Log.use, mem_push, outstanding_concat, h.pending_iff, Event.pushed.injEq,
          @eq_comm _ b c, ne_eq, reduceCtorEq, not_false_eq_true, true_and]
      popped := h.popped_concat (by simp) }
  | pop =>
    cases hpop : log.pending.pop? with
    | none =>
      simp only [Log.use, hpop]
      exact {
        order_eq := h.order_eq
        sound := h.sound
        pending_iff := fun c => by simp [outstanding_concat, h.pending_iff]
        popped := h.popped_concat (by simp) }
    | some taken =>
      obtain ⟨b, rest⟩ := taken
      obtain ⟨hb, hrest, hqueued⟩ := h.sound.pop?_eq_some hpop
      simp only [Log.use, hpop]
      exact {
        order_eq := (order_pop? hpop).trans h.order_eq
        sound := hrest
        pending_iff := fun c => by
          simp only [hqueued, outstanding_concat, h.pending_iff, Event.popped.injEq,
            @eq_comm _ b c, ne_eq, reduceCtorEq, false_or]
        popped := h.popped_concat fun c hc => by
          cases hc
          exact (h.pending_iff b).mp hb }

theorem faithful_after (order : List BlockId) (uses : List Use) : Faithful order (after order uses) :=
  List.foldlRecOn uses Log.use (faithful_nil order) fun _ h u _ => h.use u

theorem map_use_events_use (log : Log) (u : Use) :
    (log.use u).events.map Event.use = log.events.map Event.use ++ [u] := by
  cases u with
  | push b => simp [Log.use, Event.use]
  | pop => cases hpop : log.pending.pop? <;> simp [Log.use, hpop, Event.use]

/-- The log has one event for each use. -/
theorem map_use_events_foldl (log : Log) (uses : List Use) :
    (uses.foldl Log.use log).events.map Event.use = log.events.map Event.use ++ uses := by
  induction uses generalizing log with
  | nil => simp
  | cons u uses ih =>
    rw [List.foldl_cons, ih, map_use_events_use, List.append_assoc, List.singleton_append]

/-- What a log says about the worklist that some uses have made. -/
structure Accounts (uses : List Use) (log : Log) : Prop where
  events_use : log.events.map Event.use = uses
  /-- A block is pending from a push of it to its next pop, and at no other time. -/
  pending_iff : ∀ b, b ∈ log.pending.queued ↔ Outstanding log.events b
  pushed_between : ∀ b before between later,
    log.events = before ++ .popped b :: (between ++ .popped b :: later) → .pushed b ∈ between

theorem accounts_after (order : List BlockId) (uses : List Use) :
    (after order uses).Accounts uses where
  events_use := map_use_events_foldl _ uses
  pending_iff := (faithful_after order uses).pending_iff
  pushed_between b before between later heq := by
    have houtstanding := (faithful_after order uses).popped b (before ++ .popped b :: between)
      later (by rw [heq, List.append_assoc, List.cons_append])
    exact pushed_mem_of_outstanding houtstanding

end Log

/-- Whatever is pushed and popped, a worklist is the set of its pending blocks, ranked by the order;
a block is pending from its push to its pop. -/
theorem used_worklist_is_ranked_set (order : List BlockId) (hnodup : order.Nodup)
    (uses : List Use) :
    IsStrictTotalOrder BlockId (Ahead order) ∧
      (Log.after order uses).pending.IsRankedSet order ∧ (Log.after order uses).Accounts uses := by
  have hfaithful := Log.faithful_after order uses
  refine ⟨isStrictTotalOrder_ahead hnodup, ?_, Log.accounts_after order uses⟩
  have hranked := hfaithful.sound.isRankedSet (by rw [hfaithful.order_eq]; exact hnodup)
  rwa [hfaithful.order_eq] at hranked

/-- An order that is not the order of identifiers. -/
def turnedBlocks : List BlockId := [⟨9, 2⟩, ⟨9, 0⟩, ⟨9, 1⟩]

/-- Blocks are pushed twice, one again after its pop, and two that are not in the order. -/
def mixedUses : List Use :=
  [.push ⟨9, 1⟩, .push ⟨9, 5⟩, .push ⟨9, 0⟩, .push ⟨4, 7⟩, .push ⟨9, 1⟩, .push ⟨9, 2⟩, .pop,
    .push ⟨9, 2⟩, .pop, .pop, .pop, .pop, .pop, .pop, .push ⟨9, 0⟩]

theorem turnedBlocks_ranked :
    turnedBlocks.Nodup ∧
      (Log.after turnedBlocks mixedUses).events =
        [.pushed ⟨9, 1⟩, .pushed ⟨9, 5⟩, .pushed ⟨9, 0⟩, .pushed ⟨4, 7⟩, .pushed ⟨9, 1⟩,
          .pushed ⟨9, 2⟩, .popped ⟨9, 2⟩, .pushed ⟨9, 2⟩, .popped ⟨9, 2⟩, .popped ⟨9, 0⟩,
          .popped ⟨9, 1⟩, .popped ⟨4, 7⟩, .popped ⟨9, 5⟩, .nothingPending, .pushed ⟨9, 0⟩] ∧
      (Log.after turnedBlocks mixedUses).pending.blocks = [⟨9, 0⟩] ∧
      IsStrictTotalOrder BlockId (Ahead turnedBlocks) ∧
      (Log.after turnedBlocks mixedUses).pending.IsRankedSet turnedBlocks ∧
      (Log.after turnedBlocks mixedUses).Accounts mixedUses :=
  ⟨by decide, by decide +kernel, by decide +kernel,
    used_worklist_is_ranked_set turnedBlocks (by decide) mixedUses⟩

end Worklist

end FlowFixpoint
