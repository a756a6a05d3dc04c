/-
# FlowFixpoint.Proofs.Pending — the worklist as a set of pending blocks.

Membership in a worklist is kept twice, as tickets in a queue and as a set of blocks. `Sound` says
that the two agree: there is one ticket for each pending block, and it carries the block's rank.
Every operation keeps it, and through it a worklist is read as the set `queued`, from which a pop
takes a block of least rank. No operation touches the order that ranks are read from.
-/
import FlowFixpoint.Fixpoint.Worklist

namespace FlowFixpoint.Worklist

/-- The tickets are those of the pending blocks, each with the block's rank. -/
def Sound (w : Worklist) : Prop :=
  ∀ ticket, ticket ∈ w.queue ↔ ticket.block ∈ w.queued ∧ ticket.rank = w.rank ticket.block

theorem sound_ofOrder (order : List BlockId) : (ofOrder order).Sound := by
  intro ticket
  simp [ofOrder]

theorem mem_push {w : Worklist} {b c : BlockId} :
    c ∈ (w.push b).queued ↔ c = b ∨ c ∈ w.queued := by
  unfold push
  split
  · next hb =>
    constructor
    · exact .inr
    · rintro (rfl | hc)
      · exact Std.ExtTreeSet.contains_iff_mem.mp hb
      · exact hc
  · simp only [Std.ExtTreeSet.mem_insert, Std.LawfulEqCmp.compare_eq_iff_eq, @eq_comm _ b c]

@[simp]
theorem order_push (w : Worklist) (b : BlockId) : (w.push b).order = w.order := by
  unfold push
  split <;> rfl

theorem Sound.push {w : Worklist} (h : w.Sound) (b : BlockId) : (w.push b).Sound := by
  intro ticket
  have hticket := h ticket
  rw [mem_push]
  unfold Worklist.push
  split
  · next hb =>
    rw [hticket]
    have hmem : b ∈ w.queued := Std.ExtTreeSet.contains_iff_mem.mp hb
    constructor
    · rintro ⟨hq, hr⟩
      exact ⟨.inr hq, hr⟩
    · rintro ⟨rfl | hq, hr⟩
      · exact ⟨hmem, hr⟩
      · exact ⟨hq, hr⟩
  · simp only [Std.ExtTreeSet.mem_insert, Std.LawfulEqCmp.compare_eq_iff_eq, hticket]
    constructor
    · rintro (rfl | ⟨hq, hr⟩)
      · exact ⟨.inl rfl, rfl⟩
      · exact ⟨.inr hq, hr⟩
    · rintro ⟨rfl | hq, hr⟩
      · exact .inl (by rw [show w.rank ticket.block = ticket.rank from hr.symm])
      · exact .inr ⟨hq, hr⟩

/-- A pop takes one pending block and leaves the others. -/
theorem Sound.pop?_eq_some {w w' : Worklist} {b : BlockId} (h : w.Sound)
    (hpop : w.pop? = some (b, w')) :
    b ∈ w.queued ∧ w'.Sound ∧ ∀ c, c ∈ w'.queued ↔ c ≠ b ∧ c ∈ w.queued := by
  obtain ⟨ticket, hhead, heq⟩ := Option.map_eq_some_iff.mp hpop
  cases heq
  have hmem : ticket ∈ w.queue := by
    rw [← Std.ExtTreeSet.mem_toList]
    exact List.mem_of_head? hhead
  obtain ⟨hqueued, hrank⟩ := (h ticket).mp hmem
  have herase : ∀ c, c ∈ w.queued.erase ticket.block ↔ c ≠ ticket.block ∧ c ∈ w.queued := by
    intro c
    simp only [Std.ExtTreeSet.mem_erase, ne_eq, Std.LawfulEqCmp.compare_eq_iff_eq,
      @eq_comm _ ticket.block c]
  refine ⟨hqueued, ?_, herase⟩
  intro other
  have hother := h other
  change other ∈ w.queue.erase ticket ↔
    other.block ∈ w.queued.erase ticket.block ∧ other.rank = w.rank other.block
  rw [herase, Std.ExtTreeSet.mem_erase, hother]
  -- tickets of one block have one rank, so erasing the ticket erases the block
  have hsame : other.rank = w.rank other.block → (other = ticket ↔ other.block = ticket.block) := by
    intro hr
    constructor
    · rintro rfl
      rfl
    · intro hb
      cases other
      cases ticket
      simp_all
  constructor
  · rintro ⟨hne, hq, hr⟩
    refine ⟨⟨fun hb => ?_, hq⟩, hr⟩
    exact hne (by simp [(hsame hr).mpr hb])
  · rintro ⟨⟨hne, hq⟩, hr⟩
    refine ⟨fun heq => ?_, hq, hr⟩
    exact hne ((hsame hr).mp (Std.LawfulEqCmp.compare_eq_iff_eq.mp heq).symm)

theorem order_pop? {w w' : Worklist} {b : BlockId} (h : w.pop? = some (b, w')) :
    w'.order = w.order := by
  obtain ⟨ticket, -, heq⟩ := Option.map_eq_some_iff.mp h
  cases heq
  rfl

/-- Tickets are ordered by rank first. -/
theorem rank_le_of_isLE {a b : Ticket} (h : (compare a b).isLE = true) : a.rank ≤ b.rank := by
  have hthen : ((compare a.rank b.rank).then (compare a.block b.block)).isLE = true := h
  cases hrank : compare a.rank b.rank with
  | lt => exact Nat.le_of_lt (Nat.compare_eq_lt.mp hrank)
  | eq => exact Nat.le_of_eq (Nat.compare_eq_eq.mp hrank)
  | gt => simp [hrank] at hthen

/-- A pop takes a block of least rank. -/
theorem Sound.rank_le_of_pop? {w w' : Worklist} {b c : BlockId} (h : w.Sound)
    (hpop : w.pop? = some (b, w')) (hc : c ∈ w.queued) : w.rank b ≤ w.rank c := by
  obtain ⟨ticket, hhead, heq⟩ := Option.map_eq_some_iff.mp hpop
  cases heq
  rw [← Std.ExtTreeSet.min?_eq_head?_toList,
    Std.ExtTreeSet.min?_eq_some_iff_mem_and_forall] at hhead
  obtain ⟨hmem, hleast⟩ := hhead
  rw [← ((h ticket).mp hmem).2]
  exact rank_le_of_isLE (hleast ⟨w.rank c, c⟩ ((h _).mpr ⟨hc, rfl⟩))

/-- Nothing can be popped exactly when nothing is pending. -/
theorem Sound.pop?_eq_none_iff {w : Worklist} (h : w.Sound) :
    w.pop? = none ↔ ∀ b, b ∉ w.queued := by
  have hempty : w.pop? = none ↔ ∀ ticket, ticket ∉ w.queue := by
    simp only [pop?, Option.map_eq_none_iff, List.head?_eq_none_iff, List.eq_nil_iff_forall_not_mem,
      Std.ExtTreeSet.mem_toList]
  rw [hempty]
  constructor
  · intro hq b hb
    exact hq ⟨w.rank b, b⟩ ((h _).mpr ⟨hb, rfl⟩)
  · intro hb ticket hticket
    exact hb ticket.block ((h ticket).mp hticket).1

/-- Pushing several blocks under a condition. -/
theorem mem_foldl_push {w : Worklist} {bs : List BlockId} {keep : BlockId → Bool} {c : BlockId} :
    c ∈ (bs.foldl (fun w b => if keep b then w.push b else w) w).queued ↔
      c ∈ w.queued ∨ c ∈ bs ∧ keep c = true := by
  induction bs generalizing w with
  | nil => simp
  | cons b bs ih =>
    rw [List.foldl_cons, ih]
    by_cases hb : keep b = true
    · simp only [hb, if_true, mem_push, List.mem_cons]
      grind
    · simp only [hb, List.mem_cons]
      grind

theorem order_foldl_push (w : Worklist) (bs : List BlockId) (keep : BlockId → Bool) :
    (bs.foldl (fun w b => if keep b then w.push b else w) w).order = w.order := by
  induction bs generalizing w with
  | nil => rfl
  | cons b bs ih =>
    rw [List.foldl_cons, ih]
    split
    · exact order_push w b
    · rfl

theorem Sound.foldl_push {w : Worklist} (h : w.Sound) (bs : List BlockId)
    (keep : BlockId → Bool) : (bs.foldl (fun w b => if keep b then w.push b else w) w).Sound := by
  induction bs generalizing w with
  | nil => exact h
  | cons b bs ih =>
    rw [List.foldl_cons]
    split
    · exact ih (h.push b)
    · exact ih h

end FlowFixpoint.Worklist
