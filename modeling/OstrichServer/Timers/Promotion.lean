import OstrichServer.Foundations.BitMasks
import OstrichServer.Timers.Conservation

/-!
# When a single timer is promoted

One event in the timer queue, checked at any times.  The check looks again at bucket `i` when bit
`i - 1` or a higher one of the nine bits it keeps of the time index has changed.  When the index has
gone round all of these bits in between, the bucket is passed over, and an event can stay there
although its time has come.
-/

namespace OstrichServer
namespace Timers

open BitMasks

/-! ## The time index -/

/-- `now / IDX_TIME(0)` -/
def timeIndex (now : Int) : Int := now.tdiv (idxTime 0)

/-- The block of time in which bucket `i` is not looked at again. -/
def block (i : Fin nPqList) (now : Int) : Int := timeIndex now / 2 ^ (i.val - 1)

/-- What the nine bits that are kept of the time index tell of the block. -/
def keptBlock (i : Fin nPqList) (now : Int) : Int := timeIndex now % 2 ^ 9 / 2 ^ (i.val - 1)

/-- The time is in another block of the bucket than at the last check, but the nine bits do not
show it. -/
def Hidden (i : Fin nPqList) (last now : Int) : Prop :=
  block i last ≠ block i now ∧ keptBlock i last = keptBlock i now

theorem lt_countShifts_iff {rounds bit : Nat} {todo : BitVec 32} (small : todo.toNat < 2 ^ rounds) :
    bit < countShifts rounds todo ↔ 2 ^ bit ≤ todo.toNat := by
  induction rounds generalizing bit todo with
  | zero =>
      have positive := Nat.two_pow_pos bit
      rw [countShifts]
      omega
  | succ rounds induction =>
      rw [countShifts]
      split
      · rename_i zero
        have positive := Nat.two_pow_pos bit
        have nothing : todo.toNat = 0 := by
          rw [zero]
          rfl
        omega
      · rename_i some
        have nonzero : todo.toNat ≠ 0 := fun zero => some (BitVec.eq_of_toNat_eq zero)
        have half : (todo >>> 1).toNat = todo.toNat / 2 := by
          rw [BitVec.toNat_ushiftRight, Nat.shiftRight_eq_div_pow, pow_one]
        cases bit with
        | zero => omega
        | succ bit =>
            rw [Nat.succ_lt_succ_iff, induction (by rw [half]; omega), half, pow_succ]
            omega

theorem toNat_checkBuckets_mod (now : Int) :
    (checkBuckets now).toNat % 2 ^ 9 = (timeIndex now % 2 ^ 9).toNat := by
  rw [checkBuckets, BitVec.toNat_ofInt]
  change ((timeIndex now) % (2 ^ 32 : Nat)).toNat % 2 ^ 9 = _
  have nonneg := Int.emod_nonneg (timeIndex now) (by decide : ((2 ^ 32 : Nat) : Int) ≠ 0)
  have small : timeIndex now % (2 ^ 32 : Nat) % 2 ^ 9 = timeIndex now % 2 ^ 9 :=
    Int.emod_emod_of_dvd _ (by decide)
  rw [← small, Int.toNat_emod nonneg (by decide)]
  rfl

/-- A check looks at the buckets whose block has changed in the nine bits. -/
theorem mem_checkedBuckets_iff {q : PriorityQueue} {last now : Int} {i : Fin nPqList}
    (index : q.lastCheckIndex = checkBuckets last) :
    i ∈ checkedBuckets now q ↔ i.val ≠ 0 ∧ keptBlock i last ≠ keptBlock i now := by
  have todo : (todoBuckets now q).toNat =
      (timeIndex now % 2 ^ 9).toNat ^^^ (timeIndex last % 2 ^ 9).toNat := by
    rw [todoBuckets, index, BitVec.toNat_and, BitVec.toNat_xor]
    change _ &&& (2 ^ 9 - 1) = _
    rw [Nat.and_two_pow_sub_one_eq_mod, Nat.xor_mod_two_pow, toNat_checkBuckets_mod,
      toNat_checkBuckets_mod]
  have kept (time : Int) : ((timeIndex time % 2 ^ 9).toNat / 2 ^ (i.val - 1) : Nat) =
      keptBlock i time := by
    have nonneg := Int.emod_nonneg (timeIndex time) (by decide : (2 ^ 9 : Int) ≠ 0)
    rw [keptBlock, Int.natCast_ediv, Int.toNat_of_nonneg nonneg]
    rfl
  rw [checkedBuckets, bucketsFromOne, List.mem_filter]
  simp only [List.mem_finRange, true_and, decide_eq_true_eq]
  rw [Nat.one_le_iff_ne_zero]
  refine and_congr_right fun positive => ?_
  have reached : i.val ≤ countShifts 32 (todoBuckets now q) ↔
      i.val - 1 < countShifts 32 (todoBuckets now q) := by omega
  rw [reached, lt_countShifts_iff (todoBuckets now q).isLt, todo, two_pow_le_xor_iff,
    ← kept, ← kept, Ne, Ne, Int.natCast_inj, eq_comm]

theorem timeIndex_of_nonneg {now : Int} (nonneg : 0 ≤ now) : timeIndex now = now / 5 :=
  Int.tdiv_eq_ediv_of_nonneg nonneg

theorem timeIndex_of_neg {now : Int} (negative : now < 0) : timeIndex now = -(-now / 5) := by
  have positive : timeIndex (-now) = -now / 5 := timeIndex_of_nonneg (by omega)
  rw [← positive, timeIndex, timeIndex, Int.neg_tdiv, neg_neg]

theorem timeIndex_mono {earlier later : Int} (le : earlier ≤ later) :
    timeIndex earlier ≤ timeIndex later := by
  rcases lt_or_ge later 0 with negative | nonneg
  · rw [timeIndex_of_neg negative, timeIndex_of_neg (by omega)]
    omega
  · rw [timeIndex_of_nonneg nonneg]
    rcases lt_or_ge earlier 0 with below | above
    · rw [timeIndex_of_neg below]
      omega
    · rw [timeIndex_of_nonneg above]
      omega

theorem block_mono (i : Fin nPqList) {earlier later : Int} (le : earlier ≤ later) :
    block i earlier ≤ block i later :=
  Int.ediv_le_ediv (pow_pos (by decide) _) (timeIndex_mono le)

/-- Two times in one block of a bucket are less than the time apart that the bucket below is for. -/
theorem lt_of_block_eq {i : Fin nPqList} {earlier later : Int} (le : earlier ≤ later)
    (rounded : earlier ≤ -5 ∨ 0 ≤ earlier) (same : block i earlier = block i later) :
    later - earlier < idxTime (i.val - 1) := by
  unfold block at same
  unfold idxTime
  have positive : (0 : Int) < 2 ^ (i.val - 1) := pow_pos (by decide) _
  generalize (2 : Int) ^ (i.val - 1) = width at same positive
  have near : timeIndex later - timeIndex earlier < width := by
    have whole := Int.mul_ediv_add_emod (timeIndex earlier) width
    have whole' := Int.mul_ediv_add_emod (timeIndex later) width
    have low := Int.emod_nonneg (timeIndex earlier) positive.ne'
    have high := Int.emod_lt_of_pos (timeIndex later) positive
    rw [same] at whole
    omega
  rcases rounded with before | after
  · have earlier_index := timeIndex_of_neg (show earlier < 0 by omega)
    rcases lt_or_ge later 0 with negative | nonneg
    · have later_index := timeIndex_of_neg negative
      omega
    · -- index 0 begins a block
      have below : timeIndex earlier / width < 0 := Int.ediv_neg_of_neg_of_pos (by omega) positive
      have above : 0 ≤ timeIndex later / width := by
        rw [timeIndex_of_nonneg nonneg]
        exact Int.ediv_nonneg (by omega) positive.le
      omega
  · have earlier_index := timeIndex_of_nonneg after
    have later_index := timeIndex_of_nonneg (after.trans le)
    omega

/-- A check at most 256 indexes after the last one, which is up to 1280 milliseconds, hides
nothing. -/
theorem not_hidden_of_near {i : Fin nPqList} {last now : Int} (le : last ≤ now)
    (near : timeIndex now - timeIndex last ≤ 2 ^ 8) : ¬ Hidden i last now := by
  rintro ⟨changed, kept⟩
  have mono := timeIndex_mono le
  unfold block at changed
  unfold keptBlock at kept
  generalize timeIndex last = before at changed kept mono near
  generalize timeIndex now = after at changed kept mono near
  have small : i.val - 1 ≤ 8 := by
    have bound : i.val < 10 := i.isLt
    omega
  interval_cases i.val - 1 <;> norm_num at changed kept <;> omega

/-! ## Where an event goes -/

theorem sinkIndex_eq_zero_iff {tt : Int} {i : Nat} (inside : i < nPqList) :
    sinkIndex tt i inside = ⟨0, Nat.succ_pos 9⟩ ↔ i = 0 ∨ tt ≤ idxTime 0 := by
  induction i with
  | zero => exact ⟨fun _ => Or.inl rfl, fun _ => rfl⟩
  | succ i induction =>
      have least : idxTime 0 ≤ idxTime i := by
        have power : (1 : Int) ≤ 2 ^ i := one_le_pow₀ (by decide)
        unfold idxTime
        omega
      rw [sinkIndex]
      split
      · rename_i low
        rw [induction]
        constructor
        · rintro (rfl | small)
          · exact Or.inr low
          · exact Or.inr small
        · rintro (none | small)
          · cases none
          · exact Or.inr small
      · rename_i high
        constructor
        · intro zero
          cases zero
        · rintro (none | small)
          · cases none
          · exact (high (small.trans least)).elim

/-- An event that has sunk to a bucket above 0 has more time left than the bucket below is for. -/
theorem lt_of_sinkIndex {tt : Int} {i : Nat} (inside : i < nPqList)
    (above : (sinkIndex tt i inside).val ≠ 0) :
    idxTime ((sinkIndex tt i inside).val - 1) < tt := by
  induction i with
  | zero => exact (above rfl).elim
  | succ i induction =>
      rw [sinkIndex] at above ⊢
      split at above
      · rename_i low
        rw [if_pos low]
        exact induction _ above
      · rename_i high
        rw [if_neg high]
        exact Int.not_le.mp high

theorem enqueueIndex_eq_zero_iff (t : Int) :
    enqueueIndex t = ⟨0, Nat.succ_pos 9⟩ ↔ t ≤ idxTime 0 := by
  unfold enqueueIndex idxTime
  split_ifs <;> simp <;> omega

theorem lt_of_enqueueIndex {t : Int} (above : (enqueueIndex t).val ≠ 0) :
    idxTime ((enqueueIndex t).val - 1) < t := by
  unfold enqueueIndex idxTime at above ⊢
  split_ifs at above ⊢ <;> simp [nPqList] at above ⊢ <;> omega

/-! ## One event -/

/-- The queue holds one event, in this bucket. -/
structure Alone (q : PriorityQueue) (e : Event) (i : Fin nPqList) : Prop where
  not_null : e ≠ 0
  buckets : ∀ j, q.buckets j = if j = i then e else 0
  unlinked : q.next e = 0

variable {timeout : Event → Int} {fuel : Nat} {q : PriorityQueue} {e : Event} {i : Fin nPqList}

theorem Alone.here (alone : Alone q e i) : q.buckets i = e := by
  rw [alone.buckets, if_pos rfl]

theorem Alone.unique {j : Fin nPqList} (alone : Alone q e i) (alone' : Alone q e j) : i = j := by
  by_contra distinct
  have here := alone.here
  rw [alone'.buckets, if_neg distinct] at here
  exact alone.not_null here.symm

/-- The bucket is emptied and the event put into another one. -/
theorem Alone.move (alone : Alone q e i) (j : Fin nPqList) :
    (q.setBucket i 0).buckets j = 0 ∧ Alone ((q.setBucket i 0).setBucket j e) e j := by
  have emptied (k : Fin nPqList) : (q.setBucket i 0).buckets k = 0 := by
    rw [PriorityQueue.buckets_setBucket, Function.update_apply, alone.buckets]
    exact ite_eq_left_iff.mpr fun other => if_neg other
  refine ⟨emptied j, alone.not_null, fun k => ?_, alone.unlinked⟩
  rw [PriorityQueue.buckets_setBucket, Function.update_apply, emptied]

/-- A check of some buckets moves the event if its own is among them. -/
theorem checkAll_alone (timeout : Event → Int) (now : Int) (enough : 2 ≤ fuel)
    {checked : List (Fin nPqList)} (sorted : checked.Pairwise (· < ·)) (alone : Alone q e i) :
    ∃ q' i', checkAll timeout now fuel checked q = .done q' ∧ Alone q' e i' ∧
      (i ∈ checked → i' = destination timeout now i e) ∧ (i ∉ checked → i' = i) ∧
      q'.lastCheckIndex = q.lastCheckIndex := by
  induction checked generalizing q i with
  | nil => exact ⟨q, i, rfl, alone, fun none => (List.not_mem_nil none).elim, fun _ => rfl, rfl⟩
  | cons j rest induction =>
      obtain ⟨above, tail⟩ := List.pairwise_cons.mp sorted
      rw [checkAll]
      by_cases here : j = i
      · subst here
        obtain ⟨free, moved⟩ := alone.move (destination timeout now j e)
        have outside : destination timeout now j e ∉ rest := fun later =>
          absurd (above _ later) (not_lt.mpr (destination_le timeout now j e))
        obtain ⟨q', i', ends, final, -, stays, index⟩ := induction tail moved
        rw [alone.here, checkBucket_free (q := q.setBucket j 0) enough alone.not_null alone.unlinked
          free]
        exact ⟨q', i', ends, final, fun _ => stays outside,
          fun away => (away List.mem_cons_self).elim, index⟩
      · have empty : q.buckets j = 0 := by rw [alone.buckets, if_neg here]
        have same : q.setBucket j 0 = q := by
          rw [PriorityQueue.setBucket, ← empty, Function.update_eq_self]
        obtain ⟨q', i', ends, final, moves, stays, index⟩ := induction tail alone
        rw [same, empty, checkBucket_empty (by omega)]
        have member : i ∈ j :: rest ↔ i ∈ rest := by
          rw [List.mem_cons, or_iff_right (Ne.symm here)]
        rw [member]
        exact ⟨q', i', ends, final, moves, stays, index⟩

/-- What a check does with the only event. -/
theorem priorityQueueCheck_alone (timeout : Event → Int) (now : Int) (enough : 2 ≤ fuel)
    (alone : Alone q e i) :
    ∃ q' i', priorityQueueCheck timeout now fuel q = .done q' ∧ Alone q' e i' ∧
      (i ∈ checkedBuckets now q → i' = destination timeout now i e) ∧
      (i ∉ checkedBuckets now q → i' = i) ∧ q'.lastCheckIndex = checkBuckets now :=
  checkAll_alone (q := { q with
      lastCheckTime := BitVec.ofInt 32 now, lastCheckIndex := checkBuckets now })
    timeout now enough (bucketsFromOne_sorted _) ⟨alone.not_null, alone.buckets, alone.unlinked⟩

/-- The event is enqueued into an empty queue. -/
theorem eventPriorityEnqueue_alone (timeout : Event → Int) (now : Int) (not_null : e ≠ 0)
    (empty : ∀ j, q.buckets j = 0) (unlinked : q.next e = 0) :
    Alone (eventPriorityEnqueue timeout e now q) e (enqueueIndex (timeLeft (timeout e) now)) ∧
      (eventPriorityEnqueue timeout e now q).lastCheckIndex = q.lastCheckIndex := by
  rw [eventPriorityEnqueue_free (empty _)]
  refine ⟨⟨not_null, fun j => ?_, unlinked⟩, rfl⟩
  rw [PriorityQueue.buckets_setBucket, Function.update_apply, empty]

/-! ## Runs -/

/-- The queue, the time of the last check and the latest time. -/
structure Timeline where
  queue : Outcome PriorityQueue
  last : Int
  now : Int

/-- A difference of times that a `time_t` can hold, at a time of which the index tells the last five
milliseconds: index 0 covers nine of them, since `/` rounds towards zero. -/
structure Regular (timeout now : Int) : Prop where
  low : -2 ^ 63 ≤ timeout - now
  high : timeout - now < 2 ^ 63
  rounded : now ≤ -5 ∨ 0 ≤ now

/-- The condition on a check: the times are regular, and the block of the event's bucket is not
hidden. -/
def Shown (timeout : Event → Int) (e : Event) (line : Timeline) (now : Int) : Prop :=
  ∀ q i, line.queue = .done q → Alone q e i → i.val ≠ 0 →
    Regular (timeout e) now ∧ ¬ Hidden i line.last now

/-- One event enqueued into an empty queue, after a last check at any time before, and then checked
at any later times which a condition allows. -/
def checkSystem (timeout : Event → Int) (fuel : Nat) (e : Event) (starts : Int → Prop)
    (allowed : Timeline → Int → Prop) : TransitionSystem Timeline where
  initial line := ∃ q last now, (∀ j, q.buckets j = 0) ∧ q.next e = 0 ∧
    q.lastCheckIndex = checkBuckets last ∧ last ≤ now ∧ starts now ∧
    line = ⟨.done (eventPriorityEnqueue timeout e now q), last, now⟩
  step line line' := ∃ q now, line.queue = .done q ∧ line.now ≤ now ∧ allowed line now ∧
    line' = ⟨priorityQueueCheck timeout now fuel q, now, now⟩

/-- The event is in one bucket: in bucket 0 if its time had come at the last check, and above it as
long as there are more than five milliseconds left. -/
def Punctual (timeout : Event → Int) (e : Event) (line : Timeline) : Prop :=
  ∃ q i, line.queue = .done q ∧ Alone q e i ∧ (timeout e ≤ line.last → i.val = 0) ∧
    (5 < timeout e - line.now → i.val ≠ 0)

/-- What holds of the event's bucket: since some time at which it was chosen, the block of the
bucket has not been left, as far as there were checks. -/
structure Placed (timeout : Event → Int) (e : Event) (line : Timeline) (q : PriorityQueue)
    (i : Fin nPqList) : Prop where
  done : line.queue = .done q
  alone : Alone q e i
  index : q.lastCheckIndex = checkBuckets line.last
  ordered : line.last ≤ line.now
  high : timeout e - line.now < 2 ^ 63
  ready : i.val = 0 → timeout e - line.now ≤ 5
  waiting : i.val ≠ 0 → ∃ chosen ≤ line.now, (chosen ≤ -5 ∨ 0 ≤ chosen) ∧
    idxTime (i.val - 1) < timeout e - chosen ∧
    (line.last ≤ chosen ∨ block i chosen = block i line.last)

variable {line : Timeline}

/-- The bucket of a waiting event stays in one block up to a later time in the block of the last
check. -/
theorem block_eq_of_last {last chosen now : Int} (ordered : chosen ≤ now)
    (before : last ≤ chosen ∨ block i chosen = block i last) (same : block i last = block i now) :
    block i chosen = block i now := by
  rcases before with le | equal
  · have low := block_mono i le
    have high := block_mono i ordered
    omega
  · rw [equal, same]

theorem Placed.punctual (placed : Placed timeout e line q i) : Punctual timeout e line := by
  refine ⟨q, i, placed.done, placed.alone, fun due => ?_, fun early low => ?_⟩
  · by_contra above
    obtain ⟨chosen, -, rounded, long, before⟩ := placed.waiting above
    have width : 0 < idxTime (i.val - 1) := mul_pos (by decide) (pow_pos (by decide) _)
    rcases before with after | same
    · omega
    · rcases le_total line.last chosen with after | le
      · omega
      · have near := lt_of_block_eq le rounded same
        omega
  · have ready := placed.ready low
    omega

/-- Where a check of the only event leaves it. -/
theorem Placed.check (placed : Placed timeout e line q i) (enough : 2 ≤ fuel) (now : Int) :
    ∃ q' i', priorityQueueCheck timeout now fuel q = .done q' ∧ Alone q' e i' ∧
      q'.lastCheckIndex = checkBuckets now ∧
      (i' = i ∧ (i.val ≠ 0 → keptBlock i line.last = keptBlock i now) ∨
        i.val ≠ 0 ∧ keptBlock i line.last ≠ keptBlock i now ∧
          i' = destination timeout now i e) := by
  obtain ⟨q', i', ends, alone, moves, stays, index⟩ :=
    priorityQueueCheck_alone timeout now enough placed.alone
  refine ⟨q', i', ends, alone, index, ?_⟩
  by_cases member : i ∈ checkedBuckets now q
  · obtain ⟨above, changed⟩ := (mem_checkedBuckets_iff placed.index).mp member
    exact Or.inr ⟨above, changed, moves member⟩
  · refine Or.inl ⟨stays member, fun above => ?_⟩
    by_contra changed
    exact member ((mem_checkedBuckets_iff placed.index).mpr ⟨above, changed⟩)

theorem Regular.timeLeft {timeout now : Int} (regular : Regular timeout now) :
    timeLeft timeout now = timeout - now := by
  have low := regular.low
  have high := regular.high
  apply Int.bmod_eq_of_le <;> omega

/-- The invariant holds after the event has been enqueued. -/
theorem placed_enqueue {last now : Int} (not_null : e ≠ 0) (empty : ∀ j, q.buckets j = 0)
    (unlinked : q.next e = 0) (index : q.lastCheckIndex = checkBuckets last) (ordered : last ≤ now)
    (regular : Regular (timeout e) now) :
    Placed timeout e ⟨.done (eventPriorityEnqueue timeout e now q), last, now⟩
      (eventPriorityEnqueue timeout e now q) (enqueueIndex (timeLeft (timeout e) now)) := by
  obtain ⟨alone, kept⟩ := eventPriorityEnqueue_alone (q := q) timeout now not_null empty unlinked
  have left := regular.timeLeft
  constructor
  case done => rfl
  case alone => exact alone
  case index => exact kept.trans index
  case ordered => exact ordered
  case high => exact regular.high
  case ready =>
    intro low
    have small := (enqueueIndex_eq_zero_iff _).mp (Fin.ext low)
    rw [left] at small
    exact small
  case waiting =>
    intro above
    have long := lt_of_enqueueIndex above
    rw [left] at long
    exact ⟨now, le_rfl, regular.rounded, by rwa [left], Or.inl ordered⟩

/-- Every check that meets the condition keeps the invariant. -/
theorem Placed.step (placed : Placed timeout e line q i) (enough : 2 ≤ fuel) {now : Int}
    (later : line.now ≤ now) (shown : Shown timeout e line now) :
    ∃ q' i', Placed timeout e ⟨priorityQueueCheck timeout now fuel q, now, now⟩ q' i' := by
  obtain ⟨q', i', ends, alone, index, moved⟩ := placed.check enough now
  have high := placed.high
  refine ⟨q', i', ends, alone, index, le_rfl, by change timeout e - now < 2 ^ 63; omega, ?_, ?_⟩
  · change i'.val = 0 → timeout e - now ≤ 5
    intro low
    rcases moved with ⟨rfl, -⟩ | ⟨above, -, rfl⟩
    · have ready := placed.ready low
      omega
    · obtain ⟨regular, -⟩ := shown q i placed.done placed.alone above
      have sunk := (sinkIndex_eq_zero_iff i.isLt).mp (Fin.ext low)
      rw [regular.timeLeft] at sunk
      exact sunk.resolve_left above
  · intro above'
    change ∃ chosen ≤ now, _ ∧ _ ∧ (now ≤ chosen ∨ block i' chosen = block i' now)
    rcases moved with ⟨rfl, kept⟩ | ⟨above, -, rfl⟩
    · obtain ⟨-, not_hidden⟩ := shown q i' placed.done placed.alone above'
      have same : block i' line.last = block i' now := by
        by_contra changed
        exact not_hidden ⟨changed, kept above'⟩
      obtain ⟨chosen, ordered, rounded, long, before⟩ := placed.waiting above'
      exact ⟨chosen, ordered.trans later, rounded, long,
        Or.inr (block_eq_of_last (ordered.trans later) before same)⟩
    · obtain ⟨regular, -⟩ := shown q i placed.done placed.alone above
      have long := lt_of_sinkIndex i.isLt above'
      exact ⟨now, le_rfl, regular.rounded, lt_of_lt_of_eq long regular.timeLeft, Or.inl le_rfl⟩

/-- Exactly when a check leaves the event where it should be. -/
theorem Placed.punctual_check_iff (placed : Placed timeout e line q i) (enough : 2 ≤ fuel)
    {now : Int} (later : line.now ≤ now) :
    Punctual timeout e ⟨priorityQueueCheck timeout now fuel q, now, now⟩ ↔
      (i.val ≠ 0 → timeout e ≤ now →
        timeLeft (timeout e) now ≤ 5 ∧ ¬ Hidden i line.last now) := by
  obtain ⟨q', i', ends, alone, -, moved⟩ := placed.check enough now
  have ends' : ∀ {q₂ i₂}, priorityQueueCheck timeout now fuel q = .done q₂ → Alone q₂ e i₂ →
    i₂ = i' := by
    intro q₂ i₂ other alone₂
    rw [ends] at other
    cases other
    exact alone₂.unique alone
  have high := placed.high
  constructor
  · rintro ⟨q₂, i₂, done, alone₂, due, -⟩ above overdue
    obtain rfl := ends' done alone₂
    have low := due overdue
    rcases moved with ⟨rfl, -⟩ | ⟨-, changed, rfl⟩
    · exact (above low).elim
    · have sunk := (sinkIndex_eq_zero_iff i.isLt).mp (Fin.ext low)
      exact ⟨sunk.resolve_left above, fun hidden => changed hidden.2⟩
  · intro condition
    refine ⟨q', i', ends, alone, fun overdue => ?_, fun early low => ?_⟩
    · change timeout e ≤ now at overdue
      rcases moved with ⟨rfl, kept⟩ | ⟨above, -, rfl⟩
      · by_contra above
        obtain ⟨-, not_hidden⟩ := condition above overdue
        have same : block i' line.last = block i' now := by
          by_contra changed
          exact not_hidden ⟨changed, kept above⟩
        obtain ⟨chosen, ordered, rounded, long, before⟩ := placed.waiting above
        have near := lt_of_block_eq (ordered.trans later) rounded
          (block_eq_of_last (ordered.trans later) before same)
        omega
      · have short := (condition above overdue).1
        have sunk := (sinkIndex_eq_zero_iff i.isLt).mpr (Or.inr short)
        exact congrArg Fin.val sunk
    · change 5 < timeout e - now at early
      rcases moved with ⟨rfl, -⟩ | ⟨above, -, rfl⟩
      · have ready := placed.ready low
        omega
      · have sunk := (sinkIndex_eq_zero_iff i.isLt).mp (Fin.ext low)
        have left : timeLeft (timeout e) now = timeout e - now := by
          apply Int.bmod_eq_of_le <;> omega
        rw [left] at sunk
        have small : timeout e - now ≤ 5 := sunk.resolve_left above
        omega

/-- The invariant of runs in which every check meets the condition. -/
theorem placed_of_reachable (enough : 2 ≤ fuel) (not_null : e ≠ 0)
    (reachable :
      (checkSystem timeout fuel e (Regular (timeout e)) (Shown timeout e)).Reachable line) :
    ∃ q i, Placed timeout e line q i := by
  have invariant : (checkSystem timeout fuel e (Regular (timeout e)) (Shown timeout e)).IsInvariant
      fun line => ∃ q i, Placed timeout e line q i := by
    constructor
    · rintro _ ⟨q, last, now, empty, unlinked, index, ordered, regular, rfl⟩
      exact ⟨_, _, placed_enqueue not_null empty unlinked index ordered regular⟩
    · rintro line _ ⟨q, i, placed⟩ ⟨q', now, done, later, shown, rfl⟩
      obtain rfl : q = q' := Outcome.done.inj (placed.done.symm.trans done)
      exact placed.step enough later shown
  exact invariant.of_reachable reachable

/-- In a run in which every check of the waiting event meets the condition, the event is in bucket 0
once its time has come and above it while there is time left; and the next check, whatever the time,
leaves it so exactly if it is not both overdue and hidden. -/
theorem single_timer_punctual (enough : 2 ≤ fuel) (not_null : e ≠ 0)
    (reachable :
      (checkSystem timeout fuel e (Regular (timeout e)) (Shown timeout e)).Reachable line) :
    Punctual timeout e line ∧ ∀ q i now, line.queue = .done q → Alone q e i → line.now ≤ now →
      (Punctual timeout e ⟨priorityQueueCheck timeout now fuel q, now, now⟩ ↔
        (i.val ≠ 0 → timeout e ≤ now →
          timeLeft (timeout e) now ≤ 5 ∧ ¬ Hidden i line.last now)) := by
  obtain ⟨q, i, placed⟩ := placed_of_reachable enough not_null reachable
  refine ⟨placed.punctual, fun q' i' now done alone later => ?_⟩
  obtain rfl : q = q' := Outcome.done.inj (placed.done.symm.trans done)
  obtain rfl := placed.alone.unique alone
  exact placed.punctual_check_iff enough later

/-- An event due at 1000 and enqueued at time 0 is in bucket 5 after a check at 900 and in bucket 0
after one at 1000. -/
theorem event_8_single_timer_punctual :
    let due : Event → Int := fun _ => 1000
    let system := checkSystem due 2 8 (Regular 1000) (Shown due 8)
    ∃ q q', system.Reachable ⟨.done q, 900, 900⟩ ∧ Alone q 8 5 ∧
      system.Reachable ⟨.done q', 1000, 1000⟩ ∧ Alone q' 8 0 ∧
      Punctual due 8 ⟨.done q', 1000, 1000⟩ ∧
      ∀ q'' i now, Outcome.done q' = .done q'' → Alone q'' 8 i → 1000 ≤ now →
        (Punctual due 8 ⟨priorityQueueCheck due now 2 q'', now, now⟩ ↔
          (i.val ≠ 0 → due 8 ≤ now → timeLeft (due 8) now ≤ 5 ∧ ¬ Hidden i 1000 now)) := by
  intro due system
  have begun : system.Reachable _ := TransitionSystem.reachable_of_initial
    ⟨priorityQueueInit fun _ => 0, 0, 0, fun _ => rfl, rfl, by decide, le_rfl,
      ⟨by decide, by decide, Or.inr le_rfl⟩, rfl⟩
  obtain ⟨alone, index⟩ := eventPriorityEnqueue_alone (q := priorityQueueInit fun _ => 0) due 0
    (by decide : (8 : Event) ≠ 0) (fun _ => rfl) rfl
  obtain ⟨q, i, ended, alone, moves, -, index⟩ := priorityQueueCheck_alone due 900 le_rfl alone
  obtain rfl : i = 5 := (moves (by decide +kernel)).trans (by decide +kernel)
  have first := begun.step ⟨_, 900, rfl, by decide, fun _ _ _ _ _ =>
    ⟨⟨by decide, by decide, Or.inr (by decide)⟩, not_hidden_of_near (by decide) (by decide)⟩, rfl⟩
  rw [ended] at first
  obtain ⟨q', i', ended', alone', moves', -, -⟩ := priorityQueueCheck_alone due 1000 le_rfl alone
  have looked : (5 : Fin nPqList) ∈ checkedBuckets 1000 q :=
    (mem_checkedBuckets_iff index).mpr ⟨by decide, by decide⟩
  obtain rfl : i' = 0 := (moves' looked).trans (by decide +kernel)
  have later : (900 : Int) ≤ 1000 := by decide
  have near : timeIndex 1000 - timeIndex 900 ≤ 2 ^ 8 := by decide
  have second := first.step ⟨q, 1000, rfl, later, fun _ _ _ _ _ =>
    ⟨⟨by decide, by decide, Or.inr (by decide)⟩, not_hidden_of_near later near⟩, rfl⟩
  rw [ended'] at second
  exact ⟨q, q', first, alone, second, alone',
    single_timer_punctual le_rfl (by decide) second⟩

/-- An event due at 6, enqueued at 0, is still in bucket 1 after a check at 2560: the time index has
gone from 0 to 512. -/
theorem event_8_overdue : ¬ ∀ line,
    (checkSystem (fun _ => 6) 2 8 (fun _ => True) fun _ _ => True).Reachable line →
      Punctual (fun _ => 6) 8 line := by
  intro punctual
  have start : (checkSystem (fun _ => 6) 2 8 (fun _ => True) fun _ _ => True).Reachable
      ⟨.done (eventPriorityEnqueue (fun _ => 6) 8 0 (priorityQueueInit fun _ => 0)), 0, 0⟩ :=
    TransitionSystem.reachable_of_initial
      ⟨_, 0, 0, fun _ => rfl, rfl, by decide, le_rfl, trivial, rfl⟩
  obtain ⟨q, i, done, alone, due, -⟩ :=
    punctual _ (start.step ⟨_, 2560, rfl, by decide, trivial, rfl⟩)
  obtain ⟨placed, -⟩ := eventPriorityEnqueue_alone (q := priorityQueueInit fun _ => 0)
    (fun _ => 6) 0 (by decide : (8 : Event) ≠ 0) (fun _ => rfl) rfl
  obtain ⟨q', i', done', alone', -, stays, -⟩ :=
    priorityQueueCheck_alone (fun _ => 6) 2560 (le_refl 2) placed
  obtain rfl : q = q' := Outcome.done.inj (done.symm.trans done')
  have low : i.val = 0 := due (by decide)
  rw [alone.unique alone', stays (by decide)] at low
  exact absurd low (by decide)

end Timers
end OstrichServer
