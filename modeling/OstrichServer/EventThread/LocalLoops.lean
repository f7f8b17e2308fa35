import OstrichServer.EventThread.MainLoop

/-!
# The loops over the local queues

What an iteration of the event loop does before it comes to its timers.  It gets there exactly if
the collect queue holds no event that is put back into it while it is drained.
-/

namespace OstrichServer
namespace EventThread

open AtomicList LinkedList Loop Timers LocalQueue

variable {kind : Word → EventKind} {handler : Handler} {s : LoopState} {e : Word}
  {collected postponed batch : List Word} {timed : Set Word} {msec : Int}

/-! ## One event -/

theorem Queued.ofHandled (queued : Queued s collected postponed timed) (handled : List Word) :
    Queued { s with handled } collected postponed timed :=
  ⟨queued.collects, queued.postpones, queued.apart, queued.buckets, queued.links, queued.not_timed⟩

/-- `thread_event_process` of an event that is not put back. -/
theorem Queued.processOnce (leaves : LeavesQueues handler)
    (queued : Queued s collected postponed timed) (once : (kind e).redo = false) :
    Queued (threadEventProcess kind handler e s) collected postponed timed ∧
      (threadEventProcess kind handler e s).handled = s.handled ++ [e] := by
  unfold threadEventProcess
  simp only [once, Bool.false_eq_true, if_false]
  exact ⟨leaves.queued (queued.ofHandled _), leaves.handled ..⟩

/-- `thread_event_process` of an event on no queue. -/
theorem Queued.process (leaves : LeavesQueues handler) (queued : Queued s collected postponed timed)
    (unqueued : Unqueued e collected postponed timed) :
    Queued (threadEventProcess kind handler e s)
        (if (kind e).redo then e :: collected else collected) postponed timed ∧
      (threadEventProcess kind handler e s).handled = s.handled ++ [e] := by
  cases again : (kind e).redo with
  | true =>
      have noted := leaves.queued (e := e) (queued.ofHandled (s.handled ++ [e]))
      unfold threadEventProcess
      simp only [again, if_true]
      exact ⟨noted.enterCollect unqueued, leaves.handled ..⟩
  | false => exact queued.processOnce leaves again

/-- The collect queue gives up its first event. -/
theorem drainRound_cons (kind : Word → EventKind) (msec : Int) (leaves : LeavesQueues handler)
    (queued : Queued s (e :: collected) postponed timed) :
    ∃ s', drainRound kind handler msec s = .next s' ∧
      Queued s' (if (kind e).Again then e :: collected else collected)
        (if (kind e).idle then e :: postponed else postponed)
        (if (kind e).Timed then insert e timed else timed) ∧
      s'.handled = s.handled ++ if (kind e).Now then [e] else [] := by
  have unqueued := queued.first_collected
  have left := queued.leaveCollect
  unfold drainRound collectqueueDequeue
  rw [queued.collects.take_cons] at left ⊢
  simp only [if_neg unqueued.not_null]
  rcases Bool.eq_false_or_eq_true (kind e).idle with idle | busy
  · have now : ¬ (kind e).Now := fun now => by simp [now.1] at idle
    have timer : ¬ (kind e).Timed := fun timer => by simp [timer.1] at idle
    simp only [EventKind.Again, idle, now, timer, false_and, if_true, if_false]
    exact ⟨_, rfl, left.enterPostponed unqueued, (List.append_nil _).symm⟩
  · rcases Classical.em (0 < (kind e).timeout) with later | due
    · have now : ¬ (kind e).Now := fun now => now.2 later
      have timer : (kind e).Timed := ⟨busy, later⟩
      simp only [EventKind.Again, busy, now, timer, later, false_and, if_true, if_false,
        Bool.false_eq_true]
      refine ⟨_, rfl, left.enterTimers unqueued ?_ _ _, (List.append_nil _).symm⟩
      exact Function.update_self ..
    · have now : (kind e).Now := ⟨busy, due⟩
      have timer : ¬ (kind e).Timed := fun timer => due timer.2
      simp only [EventKind.Again, busy, now, timer, due, true_and, if_true, if_false,
        Bool.false_eq_true]
      obtain ⟨processed, handled⟩ := left.process leaves unqueued
      exact ⟨_, rfl, processed, handled⟩

/-- The postponed queue gives up its first event. -/
theorem postponedRound_cons (kind : Word → EventKind) (leaves : LeavesQueues handler)
    (queued : Queued s collected (e :: postponed) timed) :
    ∃ s', postponedRound kind handler s = .next s' ∧
      Queued s' (if (kind e).redo then e :: collected else collected) postponed timed ∧
      s'.handled = s.handled ++ [e] := by
  have unqueued := queued.first_postponed
  have left := queued.leavePostponed
  unfold postponedRound localqDequeue
  rw [queued.postpones.take_cons] at left ⊢
  simp only [if_neg unqueued.not_null]
  obtain ⟨processed, handled⟩ := (left.write unqueued 0).process leaves unqueued
  exact ⟨_, rfl, processed, handled⟩

/-! ## The loops -/

/-- The collect queue is drained. -/
theorem run_drainRound (msec : Int) (leaves : LeavesQueues handler)
    (queued : Queued s collected postponed timed)
    (once : ∀ e ∈ collected, ¬ (kind e).Again) :
    ∃ s', run (drainRound kind handler msec) (collected.length + 1) s = some s' ∧
      Queued s' [] ((collected.filter fun e => (kind e).idle).reverse ++ postponed)
        (timed ∪ {e | e ∈ collected ∧ (kind e).Timed}) ∧
      s'.handled = s.handled ++ collected.filter fun e => (kind e).Now := by
  induction collected generalizing s postponed timed with
  | nil =>
      have empty : s.collect = 0 := queued.collects.eq_null_iff.mpr rfl
      have stops : drainRound kind handler msec s = .stop s := by
        unfold drainRound collectqueueDequeue take
        rw [if_pos (show s.collectqueue.link = 0 from empty)]
        rfl
      refine ⟨s, run_of_stop stops, ?_, (List.append_nil _).symm⟩
      simpa using queued
  | cons e collected induction =>
      obtain ⟨s₁, goes, queued₁, handled₁⟩ := drainRound_cons kind msec leaves queued
      rw [if_neg (once e List.mem_cons_self)] at queued₁
      obtain ⟨s', result, queued', handled'⟩ :=
        induction queued₁ fun other later => once other (List.mem_cons_of_mem e later)
      refine ⟨s', (run_of_next goes).trans result, ?_, ?_⟩
      · have kept : (collected.filter fun e => (kind e).idle).reverse ++
            (if (kind e).idle then e :: postponed else postponed) =
            ((e :: collected).filter fun e => (kind e).idle).reverse ++ postponed := by
          rw [List.filter_cons]
          split <;> simp
        have more : (if (kind e).Timed then insert e timed else timed) ∪
            {e | e ∈ collected ∧ (kind e).Timed} =
            timed ∪ {x | x ∈ e :: collected ∧ (kind x).Timed} := by
          ext x
          simp only [Set.mem_union, Set.mem_ofPred_eq, List.mem_cons]
          split
          · rename_i timer
            rw [Set.mem_insert_iff]
            constructor
            · rintro ((rfl | old) | later)
              · exact Or.inr ⟨Or.inl rfl, timer⟩
              · exact Or.inl old
              · exact Or.inr ⟨Or.inr later.1, later.2⟩
            · rintro (old | ⟨rfl | later, timer'⟩)
              · exact Or.inl (Or.inr old)
              · exact Or.inl (Or.inl rfl)
              · exact Or.inr ⟨later, timer'⟩
          · rename_i other
            refine or_congr_right ⟨fun later => ⟨Or.inr later.1, later.2⟩, ?_⟩
            rintro ⟨rfl | later, timer⟩
            · exact (other timer).elim
            · exact ⟨later, timer⟩
        rwa [kept, more] at queued'
      · rw [handled', handled₁, List.append_assoc, List.filter_cons]
        congr 1
        by_cases now : (kind e).Now <;> simp [now]

/-- An event that is put back keeps the collect queue from being drained. -/
theorem run_drainRound_eq_none (leaves : LeavesQueues handler)
    (queued : Queued s collected postponed timed) (again : ∃ e ∈ collected, (kind e).Again)
    (fuel : Nat) : run (drainRound kind handler msec) fuel s = none := by
  induction fuel generalizing s collected postponed timed with
  | zero => rfl
  | succ fuel induction =>
      cases collected with
      | nil =>
          obtain ⟨e, member, -⟩ := again
          cases member
      | cons e collected =>
          obtain ⟨s', goes, queued', -⟩ := drainRound_cons kind msec leaves queued
          rw [run_of_next goes]
          apply induction queued'
          split
          · rename_i here
            exact ⟨e, List.mem_cons_self, here⟩
          · rename_i not_here
            obtain ⟨other, member, put_back⟩ := again
            rcases List.mem_cons.mp member with rfl | later
            · exact (not_here put_back).elim
            · exact ⟨other, later, put_back⟩

/-- The postponed queue is emptied. -/
theorem run_postponedRound (leaves : LeavesQueues handler)
    (queued : Queued s collected postponed timed) :
    ∃ s', run (postponedRound kind handler) (postponed.length + 1) s = some s' ∧
      Queued s' ((postponed.filter fun e => (kind e).redo).reverse ++ collected) [] timed ∧
      s'.handled = s.handled ++ postponed := by
  induction postponed generalizing s collected with
  | nil =>
      have empty : s.postponed = 0 := queued.postpones.eq_null_iff.mpr rfl
      have stops : postponedRound kind handler s = .stop s := by
        unfold postponedRound localqDequeue take
        rw [if_pos (show s.postponedqueue.link = 0 from empty)]
        rfl
      exact ⟨s, run_of_stop stops, queued, (List.append_nil _).symm⟩
  | cons e postponed induction =>
      obtain ⟨s₁, goes, queued₁, handled₁⟩ := postponedRound_cons kind leaves queued
      obtain ⟨s', result, queued', handled'⟩ := induction queued₁
      refine ⟨s', (run_of_next goes).trans result, ?_, ?_⟩
      · have kept : (postponed.filter fun e => (kind e).redo).reverse ++
            (if (kind e).redo then e :: collected else collected) =
            ((e :: postponed).filter fun e => (kind e).redo).reverse ++ collected := by
          rw [List.filter_cons]
          split <;> simp
        rwa [kept] at queued'
      · rw [handled', handled₁, List.append_assoc, List.singleton_append]

/-- The external queue hands over events that are on no queue. -/
theorem Queued.dequeueall (queued : Queued s collected postponed timed) (nodup : batch.Nodup)
    (unqueued : ∀ e ∈ batch, Unqueued e collected postponed timed) :
    Queued (dequeueall batch s) (batch.reverse ++ collected) postponed timed ∧
      (EventThread.dequeueall batch s).handled = s.handled := by
  induction batch generalizing s collected with
  | nil => exact ⟨queued, rfl⟩
  | cons e batch induction =>
      obtain ⟨alone, nodup⟩ := List.nodup_cons.mp nodup
      have first := unqueued e List.mem_cons_self
      have entered := (queued.write first 0).enterCollect first
      rw [List.reverse_cons, List.append_assoc, List.singleton_append]
      refine induction entered nodup fun other later => ?_
      obtain ⟨not_null, not_collected, not_postponed, not_timed⟩ :=
        unqueued other (List.mem_cons_of_mem e later)
      have distinct : other ≠ e := fun same => alone (same ▸ later)
      exact ⟨not_null, List.not_mem_cons_of_ne_of_not_mem distinct not_collected, not_postponed,
        not_timed⟩

/-! ## Up to the timers -/

/-- The events given to `process_event` before the timers. -/
def handedOver (kind : Word → EventKind) (collected postponed : List Word) : List Word :=
  (collected.filter fun e => (kind e).Now) ++
    ((collected.filter fun e => (kind e).idle).reverse ++ postponed)

/-- The events in the collect queue when the timers are reached. -/
def putBack (kind : Word → EventKind) (collected postponed batch : List Word) : List Word :=
  (((collected.filter fun e => (kind e).idle).reverse ++ postponed).filter
    fun e => (kind e).redo).reverse ++ batch.reverse

/-- An iteration gets to its timers. -/
theorem localPart_spec (msec : Int) (leaves : LeavesQueues handler)
    (queued : Queued s collected postponed timed)
    (once : ∀ e ∈ collected, ¬ (kind e).Again) (nodup : batch.Nodup)
    (unqueued : ∀ e ∈ batch, Unqueued e collected postponed timed) :
    ∃ fuel s', localPart kind handler msec batch fuel s = some s' ∧
      Queued s' (putBack kind collected postponed batch) []
        (timed ∪ {e | e ∈ collected ∧ (kind e).Timed}) ∧
      s'.handled = s.handled ++ handedOver kind collected postponed := by
  obtain ⟨s₁, drains, queued₁, handled₁⟩ := run_drainRound msec leaves queued once
  have fresh : ∀ e ∈ batch, Unqueued e []
      ((collected.filter fun e => (kind e).idle).reverse ++ postponed)
      (timed ∪ {e | e ∈ collected ∧ (kind e).Timed}) := by
    intro e member
    obtain ⟨not_null, not_collected, not_postponed, not_timed⟩ := unqueued e member
    refine ⟨not_null, List.not_mem_nil, ?_, ?_⟩
    · rw [List.mem_append, List.mem_reverse, not_or]
      exact ⟨fun kept => not_collected (List.mem_of_mem_filter kept), not_postponed⟩
    · rintro (old | ⟨inside, -⟩)
      · exact not_timed old
      · exact not_collected inside
  obtain ⟨queued₂, handled₂⟩ := queued₁.dequeueall nodup fresh
  obtain ⟨s', ends, queued', handled'⟩ := run_postponedRound leaves queued₂
  rw [List.append_nil] at queued'
  generalize rounds : List.length (_ ++ postponed) + 1 = more at ends
  refine ⟨collected.length + 1 + more, s', ?_, queued', ?_⟩
  · rw [localPart, run_add drains]
    change run _ _ _ = _
    rw [Nat.add_comm]
    exact run_add ends _
  · rw [handled', handled₂, handled₁, handedOver, List.append_assoc]

/-- Both loops come to their end, and no event is given to `process_event` twice. -/
def GetsToTimers (kind : Word → EventKind) (handler : Handler) (msec : Int) (batch : List Word)
    (s : LoopState) : Prop :=
  ∃ fuel s' new, localPart kind handler msec batch fuel s = some s' ∧
    s'.handled = s.handled ++ new ∧ new.Nodup

theorem handedOver_nodup (queued : Queued s collected postponed timed) :
    (handedOver kind collected postponed).Nodup := by
  have collected_nodup := Chain.nodup queued.collects
  have idle_part : ∀ {e}, e ∈ (collected.filter fun e => (kind e).idle).reverse →
      e ∈ collected ∧ (kind e).idle = true := by
    intro e member
    rwa [List.mem_reverse, List.mem_filter] at member
  refine (collected_nodup.filter _).append ?_ ?_
  · refine (List.nodup_reverse.mpr (collected_nodup.filter _)).append
      (Chain.nodup queued.postpones) fun e member => queued.apart e (idle_part member).1
  · intro e now later
    obtain ⟨inside, processed⟩ := List.mem_filter.mp now
    rcases List.mem_append.mp later with idle | postponed
    · have busy : (kind e).idle = false := (of_decide_eq_true processed).1
      rw [(idle_part idle).2] at busy
      cases busy
    · exact queued.apart e inside postponed

/-- An iteration gets past its local queues, giving no event to `process_event` twice, exactly if no
event of the collect queue is put back while this is drained. -/
theorem getsToTimers_iff (leaves : LeavesQueues handler)
    (queued : Queued s collected postponed timed) (nodup : batch.Nodup)
    (unqueued : ∀ e ∈ batch, Unqueued e collected postponed timed) :
    GetsToTimers kind handler msec batch s ↔ ∀ e ∈ collected, ¬ (kind e).Again := by
  constructor
  · rintro ⟨fuel, s', new, ends, -⟩ e member again
    rw [localPart, run_drainRound_eq_none leaves queued ⟨e, member, again⟩] at ends
    cases ends
  · intro once
    obtain ⟨fuel, s', ends, -, handled⟩ := localPart_spec msec leaves queued once nodup unqueued
    exact ⟨fuel, s', _, ends, handled, handedOver_nodup queued⟩

/-- One event in the collect queue, and the links of all events empty. -/
def oneCollected : LoopState where
  collect := 8
  postponed := 0
  timers := priorityQueueInit fun _ => 0
  handled := []

theorem queued_oneCollected : Queued oneCollected [8] [] ∅ where
  collects := .cons (by decide) .nil
  postpones := .nil
  apart _ _ := List.not_mem_nil
  buckets _ some := (some rfl).elim
  links _ member := member.elim
  not_timed _ member := member.elim

theorem idle_getsToTimers_iff :
    (LeavesQueues (fun _ s => s) ∧ Queued oneCollected [8] [] ∅ ∧ ([] : List Word).Nodup ∧
        ∀ e ∈ ([] : List Word), Unqueued e [8] [] ∅) ∧
      (GetsToTimers (fun _ => ⟨true, 0, true⟩) (fun _ s => s) 0 [] oneCollected ↔
        ∀ e ∈ [(8 : Word)], ¬ (⟨true, 0, true⟩ : EventKind).Again) :=
  ⟨⟨.of_eq fun _ _ => rfl, queued_oneCollected, List.nodup_nil, fun _ member => by cases member⟩,
    getsToTimers_iff (.of_eq fun _ _ => rfl) queued_oneCollected List.nodup_nil
      fun _ member => by cases member⟩

/-- An event with `redo` set that is due and not idle is processed for ever. -/
theorem again_not_getsToTimers :
    Queued oneCollected [8] [] ∅ ∧
      ¬ GetsToTimers (fun _ => ⟨false, 0, true⟩) (fun _ s => s) 0 [] oneCollected := by
  refine ⟨queued_oneCollected, ?_⟩
  rintro ⟨fuel, s', new, ends, -⟩
  have again : (⟨false, 0, true⟩ : EventKind).Again := by decide
  rw [localPart, run_drainRound_eq_none (.of_eq fun _ _ => rfl) queued_oneCollected
    ⟨8, List.mem_singleton_self 8, again⟩] at ends
  cases ends

end EventThread
end OstrichServer
