import OstrichServer.Foundations.LinkedList
import OstrichServer.Foundations.TransitionSystem
import OstrichServer.Timers.PriorityQueue

/-!
# When the timer queue keeps its events

Both operations put an event into an occupied bucket wrongly: they link it to the first event there
and the first event back to it, and the check follows the link of the bucket it has just emptied.
The queue keeps its events exactly as long as no event ever goes to an occupied bucket.
-/

namespace OstrichServer
namespace Timers

open LinkedList

/-- A call of one of the two operations. -/
inductive Call
  | enqueue (e : Event) (now : Int)
  | check (now : Int)

/-- What the calls so far left, and the events enqueued. -/
structure History where
  queue : Outcome PriorityQueue
  enqueued : List Event

/-- A call on the queue; an event is enqueued with a null link and only once. -/
inductive Calls (timeout : Event → Int) (fuel : Nat) : Call → History → History → Prop
  | enqueue {q : PriorityQueue} {enqueued : List Event} (e : Event) (now : Int) (not_null : e ≠ 0)
      (fresh : e ∉ enqueued) (unlinked : q.next e = 0) :
      Calls timeout fuel (.enqueue e now) ⟨.done q, enqueued⟩
        ⟨.done (eventPriorityEnqueue timeout e now q), e :: enqueued⟩
  | check {q : PriorityQueue} {enqueued : List Event} (now : Int) :
      Calls timeout fuel (.check now) ⟨.done q, enqueued⟩
        ⟨priorityQueueCheck timeout now fuel q, enqueued⟩

/-- Any sequence of calls which a condition on the queue before each call allows. -/
def callSystem (timeout : Event → Int) (fuel : Nat) (allowed : Call → PriorityQueue → Prop) :
    TransitionSystem History where
  initial h := ∃ next, h = ⟨.done (priorityQueueInit next), []⟩
  step h h' := ∃ call, (∀ q, h.queue = .done q → allowed call q) ∧ Calls timeout fuel call h h'

/-- No call followed a null pointer or failed to end, every bucket is a list that ends, and the
events on the lists are the ones enqueued, each once. -/
def Conserved (h : History) : Prop :=
  ∃ q nodes, h.queue = .done q ∧ DisjointChains 0 q.next q.buckets nodes ∧
    ∀ e, (∃ i, e ∈ nodes i) ↔ e ∈ h.enqueued

/-! ## The condition -/

/-- Where a check of some buckets means the event of a bucket to be. -/
def goal (timeout : Event → Int) (now : Int) (checked : List (Fin nPqList))
    (buckets : Fin nPqList → Event) (i : Fin nPqList) : Fin nPqList :=
  if i ∈ checked then destination timeout now i (buckets i) else i

/-- A check of some buckets means no two events to be in one bucket. -/
def Separate (timeout : Event → Int) (now : Int) (checked : List (Fin nPqList))
    (buckets : Fin nPqList → Event) : Prop :=
  ∀ i j, buckets i ≠ 0 → buckets j ≠ 0 →
    goal timeout now checked buckets i = goal timeout now checked buckets j → i = j

/-- The call puts no event into an occupied bucket. -/
def Uncrowded (timeout : Event → Int) : Call → PriorityQueue → Prop
  | .enqueue e now, q => q.buckets (enqueueIndex (timeLeft (timeout e) now)) = 0
  | .check now, q => Separate timeout now (checkedBuckets now q) q.buckets

/-! ## Buckets of at most one event -/

/-- Every bucket holds at most one event, and together they hold the events of a set. -/
structure Singles (q : PriorityQueue) (events : Set Event) : Prop where
  last : ∀ i, q.buckets i ≠ 0 → q.next (q.buckets i) = 0
  apart : ∀ {i j}, q.buckets i ≠ 0 → q.buckets i = q.buckets j → i = j
  mem_iff : ∀ e, e ∈ events ↔ e ≠ 0 ∧ ∃ i, q.buckets i = e

variable {timeout : Event → Int} {now : Int} {fuel : Nat} {q q' : PriorityQueue}
  {events : Set Event}

/-- The events of a bucket that holds at most one. -/
def single (q : PriorityQueue) (i : Fin nPqList) : List Event :=
  if q.buckets i = 0 then [] else [q.buckets i]

theorem mem_single {e : Event} {i : Fin nPqList} : e ∈ single q i ↔ e ≠ 0 ∧ q.buckets i = e := by
  unfold single
  by_cases empty : q.buckets i = 0
  · simp only [if_pos empty, List.not_mem_nil, false_iff]
    rintro ⟨not_null, rfl⟩
    exact not_null empty
  · simp only [if_neg empty, List.mem_singleton]
    constructor
    · rintro rfl
      exact ⟨empty, rfl⟩
    · rintro ⟨-, rfl⟩
      rfl

/-- The links of single events make lists that end. -/
theorem Singles.chains (singles : Singles q events) :
    DisjointChains 0 q.next q.buckets (single q) where
  chain i := by
    unfold single
    by_cases empty : q.buckets i = 0
    · rw [if_pos empty, empty]
      exact .nil
    · rw [if_neg empty]
      exact .cons empty (by rw [singles.last i empty]; exact .nil)
  disjoint here there := by
    obtain ⟨not_null, rfl⟩ := mem_single.mp here
    exact singles.apart not_null (mem_single.mp there).2.symm

theorem Singles.conserved {enqueued : List Event} (singles : Singles q {e | e ∈ enqueued}) :
    Conserved ⟨.done q, enqueued⟩ := by
  refine ⟨q, single q, rfl, singles.chains, fun e => ?_⟩
  have found := singles.mem_iff e
  simp only [mem_single, exists_and_left]
  exact found.symm

theorem singles_init (next : Event → Event) : Singles (priorityQueueInit next) ∅ where
  last i occupied := (occupied rfl).elim
  apart occupied := (occupied rfl).elim
  mem_iff e := by
    constructor
    · exact False.elim
    · rintro ⟨not_null, i, rfl⟩
      exact not_null rfl

/-- An event on no bucket is put into an empty one. -/
theorem Singles.place (singles : Singles q events) {e : Event} (not_null : e ≠ 0)
    (fresh : e ∉ events) (unlinked : q.next e = 0) {i : Fin nPqList} (free : q.buckets i = 0) :
    Singles (q.setBucket i e) (insert e events) := by
  have absent : ∀ j, q.buckets j ≠ e := fun j here =>
    fresh ((singles.mem_iff e).mpr ⟨not_null, j, here⟩)
  constructor
  case last =>
    intro j occupied
    by_cases same : j = i
    · subst same
      simpa using unlinked
    · simp only [PriorityQueue.buckets_setBucket, Function.update_of_ne same,
        PriorityQueue.next_setBucket] at occupied ⊢
      exact singles.last j occupied
  case apart =>
    intro j k occupied equal
    simp only [PriorityQueue.buckets_setBucket] at occupied equal
    by_cases left : j = i
    · by_cases right : k = i
      · rw [left, right]
      · rw [left, Function.update_self, Function.update_of_ne right] at equal
        exact (absent k equal.symm).elim
    · rw [Function.update_of_ne left] at occupied equal
      by_cases right : k = i
      · rw [right, Function.update_self] at equal
        exact (absent j equal).elim
      · rw [Function.update_of_ne right] at equal
        exact singles.apart occupied equal
  case mem_iff =>
    intro x
    rw [Set.mem_insert_iff, singles.mem_iff, PriorityQueue.buckets_setBucket]
    constructor
    · rintro (rfl | ⟨x_not_null, j, rfl⟩)
      · exact ⟨not_null, i, Function.update_self ..⟩
      · have other : j ≠ i := by
          rintro rfl
          exact x_not_null free
        exact ⟨x_not_null, j, Function.update_of_ne other ..⟩
    · rintro ⟨x_not_null, j, here⟩
      by_cases same : j = i
      · rw [same, Function.update_self] at here
        exact Or.inl here.symm
      · rw [Function.update_of_ne same] at here
        exact Or.inr ⟨x_not_null, j, here⟩

/-- A bucket is emptied. -/
theorem Singles.clear (singles : Singles q events) {i : Fin nPqList} (occupied : q.buckets i ≠ 0) :
    Singles (q.setBucket i 0) (events \ {q.buckets i}) := by
  have kept : ∀ j, (q.setBucket i 0).buckets j ≠ 0 →
      j ≠ i ∧ (q.setBucket i 0).buckets j = q.buckets j := by
    intro j here
    have other : j ≠ i := by
      rintro rfl
      simp at here
    exact ⟨other, Function.update_of_ne other ..⟩
  constructor
  case last =>
    intro j here
    obtain ⟨-, same⟩ := kept j here
    rw [same] at here ⊢
    exact singles.last j here
  case apart =>
    intro j k here equal
    obtain ⟨-, same⟩ := kept j here
    obtain ⟨-, same'⟩ := kept k (equal ▸ here)
    rw [same] at here equal
    exact singles.apart here (equal.trans same')
  case mem_iff =>
    intro x
    rw [Set.mem_sdiff, Set.mem_singleton_iff, singles.mem_iff]
    constructor
    · rintro ⟨⟨not_null, j, rfl⟩, distinct⟩
      have other : j ≠ i := by
        rintro rfl
        exact distinct rfl
      exact ⟨not_null, j, Function.update_of_ne other ..⟩
    · rintro ⟨not_null, j, rfl⟩
      obtain ⟨other, same⟩ := kept j not_null
      rw [same] at not_null ⊢
      exact ⟨⟨not_null, j, rfl⟩, fun equal => other (singles.apart not_null equal)⟩

/-- The event of a bucket moves to one that is empty once its own is. -/
theorem Singles.move (singles : Singles q events) {i j : Fin nPqList} (occupied : q.buckets i ≠ 0)
    (free : (q.setBucket i 0).buckets j = 0) :
    Singles ((q.setBucket i 0).setBucket j (q.buckets i)) events := by
  have member : q.buckets i ∈ events := (singles.mem_iff _).mpr ⟨occupied, i, rfl⟩
  have moved := (singles.clear occupied).place occupied (fun inside => inside.2 rfl)
    (singles.last i occupied) free
  rwa [Set.insert_sdiff_singleton, Set.insert_eq_of_mem member] at moved

/-! ## Enqueueing -/

theorem eventPriorityEnqueue_free {e : Event}
    (free : q.buckets (enqueueIndex (timeLeft (timeout e) now)) = 0) :
    eventPriorityEnqueue timeout e now q =
      q.setBucket (enqueueIndex (timeLeft (timeout e) now)) e := by
  simp only [eventPriorityEnqueue, free, ne_eq, not_true_eq_false, if_false]

theorem Singles.enqueued {enqueued : List Event} (singles : Singles q {e | e ∈ enqueued})
    {e : Event} (not_null : e ≠ 0) (fresh : e ∉ enqueued) (unlinked : q.next e = 0)
    (free : q.buckets (enqueueIndex (timeLeft (timeout e) now)) = 0) :
    Singles (eventPriorityEnqueue timeout e now q) {x | x ∈ e :: enqueued} := by
  have together : {x | x ∈ e :: enqueued} = insert e {x | x ∈ enqueued} := by
    ext x
    simp
  rw [eventPriorityEnqueue_free free, together]
  exact singles.place not_null fresh unlinked free

/-- An event enqueued into an occupied bucket closes a circle. -/
theorem not_conserved_of_crowded {enqueued : List Event} {e : Event} (not_null : e ≠ 0)
    (distinct : q.buckets (enqueueIndex (timeLeft (timeout e) now)) ≠ e)
    (occupied : q.buckets (enqueueIndex (timeLeft (timeout e) now)) ≠ 0) :
    ¬ Conserved ⟨.done (eventPriorityEnqueue timeout e now q), enqueued⟩ := by
  rintro ⟨q', nodes, done, chains, -⟩
  generalize index : enqueueIndex (timeLeft (timeout e) now) = i at distinct occupied
  have effect : eventPriorityEnqueue timeout e now q =
      (q.setNext e (q.buckets i)).setNext (q.buckets i) e := by
    simp only [eventPriorityEnqueue, index, ne_eq, occupied, not_false_eq_true, if_true,
      PriorityQueue.buckets_setNext]
  obtain rfl : eventPriorityEnqueue timeout e now q = q' := Outcome.done.inj done
  rw [effect] at chains
  have back : Function.update (Function.update q.next e (q.buckets i)) (q.buckets i) e
      (q.buckets i) = e := Function.update_self ..
  have forth : Function.update (Function.update q.next e (q.buckets i)) (q.buckets i) e e =
      q.buckets i := by
    rw [Function.update_of_ne distinct.symm, Function.update_self]
  refine (chains.chain i).ne_of_circle occupied ?_ ?_
  · simpa only [PriorityQueue.next_setNext, PriorityQueue.buckets_setNext, back] using not_null
  · simp only [PriorityQueue.next_setNext, PriorityQueue.buckets_setNext, back, forth]

/-! ## Checking -/

variable {i : Fin nPqList}

theorem checkBucket_empty (enough : 1 ≤ fuel) :
    checkBucket timeout now i fuel 0 q = .done q := by
  obtain ⟨fuel, rfl⟩ := Nat.exists_eq_add_of_le enough
  rw [Nat.add_comm, checkBucket, if_pos rfl]

/-- The only event of the bucket goes to an empty one. -/
theorem checkBucket_free (enough : 2 ≤ fuel) {e : Event} (not_null : e ≠ 0) (last : q.next e = 0)
    (free : q.buckets (destination timeout now i e) = 0) :
    checkBucket timeout now i fuel e q =
      .done (q.setBucket (destination timeout now i e) e) := by
  obtain ⟨fuel, rfl⟩ := Nat.exists_eq_add_of_le enough
  rw [Nat.add_comm, checkBucket, if_neg not_null]
  simp only [free, ne_eq, not_true_eq_false, if_false, PriorityQueue.next_setBucket, last]
  exact checkBucket_empty (by omega)

/-- The only event of the bucket would go to an occupied one. -/
theorem checkBucket_crowded (enough : 2 ≤ fuel) {e : Event} (not_null : e ≠ 0)
    (crowded : q.buckets (destination timeout now i e) ≠ 0) (emptied : q.buckets i = 0) :
    checkBucket timeout now i fuel e q = .nullDereference := by
  obtain ⟨fuel, rfl⟩ := Nat.exists_eq_add_of_le enough
  rw [Nat.add_comm, checkBucket, if_neg not_null]
  simp only [ne_eq, crowded, not_false_eq_true, if_true, PriorityQueue.buckets_setNext, emptied]

section Separate

variable {checked checked' rest : List (Fin nPqList)} {buckets buckets' : Fin nPqList → Event}

/-- Events that change their buckets but not their goals. -/
theorem separate_congr (moved : Fin nPqList → Fin nPqList)
    (forth : ∀ x, buckets x ≠ 0 → buckets' (moved x) ≠ 0 ∧
      goal timeout now checked' buckets' (moved x) = goal timeout now checked buckets x)
    (back : ∀ y, buckets' y ≠ 0 → ∃ x, buckets x ≠ 0 ∧ moved x = y)
    (injective : ∀ x y, buckets x ≠ 0 → buckets y ≠ 0 → moved x = moved y → x = y) :
    Separate timeout now checked buckets ↔ Separate timeout now checked' buckets' := by
  constructor
  · intro separate y y' here there same
    obtain ⟨x, occupied, rfl⟩ := back y here
    obtain ⟨x', occupied', rfl⟩ := back y' there
    rw [(forth x occupied).2, (forth x' occupied').2] at same
    rw [separate x x' occupied occupied' same]
  · intro separate x x' occupied occupied' same
    rw [← (forth x occupied).2, ← (forth x' occupied').2] at same
    exact injective x x' occupied occupied'
      (separate _ _ (forth x occupied).1 (forth x' occupied').1 same)

theorem separate_empty (empty : buckets i = 0) :
    Separate timeout now (i :: rest) buckets ↔ Separate timeout now rest buckets := by
  refine separate_congr id (fun x occupied => ⟨occupied, ?_⟩) (fun y occupied => ⟨y, occupied, rfl⟩)
    fun x y _ _ => id
  have other : x ≠ i := by
    rintro rfl
    exact occupied empty
  simp only [goal, id, List.mem_cons, other, false_or]

/-- Once the event of the first bucket to check is where it is meant to be, the others decide. -/
theorem separate_moved (sorted : (i :: rest).Pairwise (· < ·)) (occupied : buckets i ≠ 0)
    (free : Function.update buckets i 0 (destination timeout now i (buckets i)) = 0) :
    Separate timeout now (i :: rest) buckets ↔
      Separate timeout now rest (Function.update (Function.update buckets i 0)
        (destination timeout now i (buckets i)) (buckets i)) := by
  have low := destination_le timeout now i (buckets i)
  generalize reach : destination timeout now i (buckets i) = j at free low
  have later : ∀ {x}, x ≤ i → x ∉ rest := fun le member =>
    absurd (List.rel_of_pairwise_cons sorted member) (not_lt.mpr le)
  -- no other event is where this one goes
  have apart : ∀ {x}, buckets x ≠ 0 → x ≠ i → x ≠ j := by
    rintro x full other rfl
    rw [Function.update_of_ne other] at free
    exact full free
  have kept : ∀ {x}, buckets x ≠ 0 → x ≠ i →
      Function.update (Function.update buckets i 0) j (buckets i) x = buckets x := by
    intro x full other
    rw [Function.update_of_ne (apart full other), Function.update_of_ne other]
  refine separate_congr (fun x => if x = i then j else x) (fun x full => ?_) (fun y full => ?_)
    fun x y left right same => ?_
  · by_cases here : x = i
    · subst here
      simp only [if_true, Function.update_self]
      refine ⟨full, ?_⟩
      simp only [goal, later low, if_false, List.mem_cons, true_or, if_true, reach]
    · simp only [if_neg here, kept full here]
      refine ⟨full, ?_⟩
      simp only [goal, kept full here, List.mem_cons, here, false_or]
  · by_cases here : y = j
    · exact ⟨i, occupied, by simp [here]⟩
    · rw [Function.update_of_ne here] at full
      have other : y ≠ i := by
        rintro rfl
        simp at full
      rw [Function.update_of_ne other] at full
      exact ⟨y, full, by simp [other]⟩
  · by_cases left_here : x = i
    · by_cases right_here : y = i
      · rw [left_here, right_here]
      · simp only [left_here, if_true, if_neg right_here] at same
        exact (apart right right_here same.symm).elim
    · by_cases right_here : y = i
      · simp only [right_here, if_true, if_neg left_here] at same
        exact (apart left left_here same).elim
      · simpa only [if_neg left_here, if_neg right_here] using same

theorem not_separate_of_crowded (sorted : (i :: rest).Pairwise (· < ·)) (occupied : buckets i ≠ 0)
    (crowded : Function.update buckets i 0 (destination timeout now i (buckets i)) ≠ 0) :
    ¬ Separate timeout now (i :: rest) buckets := by
  intro separate
  have low := destination_le timeout now i (buckets i)
  generalize reach : destination timeout now i (buckets i) = j at crowded low
  have other : j ≠ i := by
    rintro rfl
    simp at crowded
  rw [Function.update_of_ne other] at crowded
  have outside : j ∉ i :: rest := by
    intro member
    rcases List.mem_cons.mp member with here | later
    · exact other here
    · exact absurd (List.rel_of_pairwise_cons sorted later) (not_lt.mpr low)
  refine other (separate j i crowded occupied ?_)
  simp only [goal, outside, if_false, List.mem_cons, true_or, if_true, reach]

end Separate

/-- A check of some buckets ends exactly when it means no two events to be in one bucket, and then
it keeps the events. -/
theorem checkAll_spec {checked : List (Fin nPqList)} (enough : 2 ≤ fuel)
    (sorted : checked.Pairwise (· < ·)) (singles : Singles q events) :
    (∃ q', checkAll timeout now fuel checked q = .done q' ∧ Singles q' events ∧
        Separate timeout now checked q.buckets) ∨
      checkAll timeout now fuel checked q = .nullDereference ∧
        ¬ Separate timeout now checked q.buckets := by
  induction checked generalizing q with
  | nil =>
      refine Or.inl ⟨q, rfl, singles, fun x y _ _ same => ?_⟩
      simpa only [goal, List.not_mem_nil, if_false] using same
  | cons i rest induction =>
      have tail := (List.pairwise_cons.mp sorted).2
      by_cases empty : q.buckets i = 0
      · have same : q.setBucket i 0 = q := by
          rw [PriorityQueue.setBucket, ← empty, Function.update_eq_self]
        rw [checkAll, same, empty, checkBucket_empty (by omega), separate_empty empty]
        exact induction tail singles
      · by_cases free : (q.setBucket i 0).buckets (destination timeout now i (q.buckets i)) = 0
        · rw [checkAll,
            checkBucket_free (q := q.setBucket i 0) enough empty (singles.last i empty) free,
            separate_moved sorted empty free]
          exact induction tail (singles.move empty free)
        · rw [checkAll, checkBucket_crowded enough empty free (Function.update_self ..)]
          exact Or.inr ⟨rfl, not_separate_of_crowded sorted empty free⟩

theorem priorityQueueCheck_spec (enough : 2 ≤ fuel) (singles : Singles q events) :
    (∃ q', priorityQueueCheck timeout now fuel q = .done q' ∧ Singles q' events ∧
        Uncrowded timeout (.check now) q) ∨
      priorityQueueCheck timeout now fuel q = .nullDereference ∧
        ¬ Uncrowded timeout (.check now) q :=
  checkAll_spec enough (bucketsFromOne_sorted _)
    (q := { q with lastCheckTime := BitVec.ofInt 32 now, lastCheckIndex := checkBuckets now })
    ⟨singles.last, singles.apart, singles.mem_iff⟩

/-! ## Whole runs -/

/-- What the queue is like as long as no call puts an event into an occupied bucket. -/
def Orderly (h : History) : Prop :=
  ∃ q, h.queue = .done q ∧ Singles q {e | e ∈ h.enqueued}

theorem orderly_isInvariant (enough : 2 ≤ fuel) :
    (callSystem timeout fuel (Uncrowded timeout)).IsInvariant Orderly where
  initial := by
    rintro h ⟨next, rfl⟩
    refine ⟨_, rfl, ?_⟩
    simpa using singles_init next
  step := by
    rintro h h' ⟨q, done, singles⟩ ⟨call, allowed, step⟩
    cases step with
    | enqueue e now not_null fresh unlinked =>
        cases done
        exact ⟨_, rfl, singles.enqueued not_null fresh unlinked (allowed _ rfl)⟩
    | check now =>
        cases done
        rcases priorityQueueCheck_spec enough singles with ⟨q', ended, kept, -⟩ | ⟨-, crowded⟩
        · exact ⟨q', ended, kept⟩
        · exact (crowded (allowed _ rfl)).elim

/-- A run none of whose calls puts an event into an occupied bucket conserves the events, and the
first call that does put one there does not. -/
theorem timer_queue_conserves (timeout : Event → Int) (fuel : Nat) (enough : 2 ≤ fuel) (h : History)
    (reachable : (callSystem timeout fuel (Uncrowded timeout)).Reachable h) :
    Conserved h ∧ ∀ call h', Calls timeout fuel call h h' →
      (Conserved h' ↔ ∃ q, h.queue = .done q ∧ Uncrowded timeout call q) := by
  obtain ⟨q, done, singles⟩ := (orderly_isInvariant enough).of_reachable reachable
  obtain ⟨queue, enqueued⟩ := h
  obtain rfl : queue = .done q := done
  refine ⟨singles.conserved, fun call h' step => ?_⟩
  cases step with
  | enqueue e now not_null fresh unlinked =>
      constructor
      · intro conserved
        by_contra crowded
        refine not_conserved_of_crowded not_null (fun same => fresh ?_)
          (fun free => crowded ⟨q, rfl, free⟩) conserved
        exact (singles.mem_iff e).mpr ⟨not_null, _, same⟩
      · rintro ⟨_, same, free⟩
        cases same
        exact (singles.enqueued not_null fresh unlinked free).conserved
  | check now =>
      rcases priorityQueueCheck_spec enough singles with
        ⟨q', ended, kept, orderly⟩ | ⟨ended, crowded⟩
      · rw [ended]
        exact ⟨fun _ => ⟨q, rfl, orderly⟩, fun _ => kept.conserved⟩
      · rw [ended]
        constructor
        · rintro ⟨_, _, done, -⟩
          cases done
        · rintro ⟨_, same, orderly⟩
          cases same
          exact (crowded orderly).elim

/-- Event 16 is due at 1000, event 32 at 30. -/
def dueTimes : Event → Int := fun e => if e = 16 then 1000 else 30

/-- Both events enqueued at time 0, into buckets 8 and 3. -/
def twoQueued : PriorityQueue :=
  eventPriorityEnqueue dueTimes 32 0
    (eventPriorityEnqueue dueTimes 16 0 (priorityQueueInit fun _ => 0))

/-- A check at time 990 moves both events to lower buckets. -/
theorem timer_queue_conserves_checked :
    ∃ q, (callSystem dueTimes 2 (Uncrowded dueTimes)).Reachable ⟨.done q, [32, 16]⟩ ∧
      q.buckets 0 = 32 ∧ q.buckets 1 = 16 ∧ Conserved ⟨.done q, [32, 16]⟩ ∧
      ∀ call h', Calls dueTimes 2 call ⟨.done q, [32, 16]⟩ h' →
        (Conserved h' ↔ ∃ q', Outcome.done q = .done q' ∧ Uncrowded dueTimes call q') := by
  have begun : (callSystem dueTimes 2 (Uncrowded dueTimes)).Reachable _ :=
    TransitionSystem.reachable_of_initial ⟨fun _ => 0, rfl⟩
  have once := begun.step ⟨.enqueue 16 0, by rintro _ ⟨⟩; rfl,
    .enqueue 16 0 (by decide) (by decide) rfl⟩
  have twice := once.step ⟨.enqueue 32 0, by rintro _ ⟨⟩; rfl,
    .enqueue 32 0 (by decide) (by decide) (by decide +kernel)⟩
  have buckets : checkedBuckets 990 twoQueued = [1, 2, 3, 4, 5, 6, 7, 8] := by decide +kernel
  have separate : Separate dueTimes 990 (checkedBuckets 990 twoQueued) twoQueued.buckets := by
    rw [buckets, Separate]
    decide +kernel
  have checked := twice.step ⟨.check 990, by rintro _ ⟨⟩; exact separate, .check 990⟩
  obtain ⟨q, ended, due, later⟩ : ∃ q, priorityQueueCheck dueTimes 990 2 twoQueued = .done q ∧
      q.buckets 0 = 32 ∧ q.buckets 1 = 16 := by
    rw [priorityQueueCheck, buckets]
    exact ⟨_, rfl, by decide +kernel, by decide +kernel⟩
  change (callSystem dueTimes 2 (Uncrowded dueTimes)).Reachable
    ⟨priorityQueueCheck dueTimes 990 2 twoQueued, [32, 16]⟩ at checked
  rw [ended] at checked
  exact ⟨q, checked, due, later, timer_queue_conserves dueTimes 2 le_rfl _ checked⟩

/-- Two events enqueued into one bucket are not conserved. -/
theorem timer_queue_not_conserved :
    ¬ ∀ h, (callSystem (fun _ => 1000) 2 fun _ _ => True).Reachable h → Conserved h := by
  intro conserved
  let start := priorityQueueInit fun _ => 0
  have begun : (callSystem (fun _ => 1000) 2 fun _ _ => True).Reachable ⟨.done start, []⟩ :=
    TransitionSystem.reachable_of_initial ⟨fun _ => 0, rfl⟩
  have once := begun.step ⟨.enqueue 16 998, fun _ _ => trivial,
    .enqueue 16 998 (by decide) (by simp) rfl⟩
  have twice := once.step ⟨.enqueue 32 998, fun _ _ => trivial,
    .enqueue 32 998 (by decide) (by decide) (by decide)⟩
  exact not_conserved_of_crowded (by decide) (by decide) (by decide) (conserved _ twice)

end Timers
end OstrichServer
