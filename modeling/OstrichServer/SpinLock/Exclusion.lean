import OstrichServer.Foundations.TransitionSystem
import OstrichServer.SpinLock.Backoff

/-!
# Mutual exclusion

Threads take a lock with `spin_lock`, run a critical section on the memory it guards, and give it
back with `_unlock`.  The read of the lock and the compare-and-swap are two accesses, and the
accesses of the threads interleave.
-/

namespace OstrichServer
namespace SpinLock

/-- The next step in `spin_lock` evaluates `*lock == 0`. -/
def Place.ReadsLock : Place → Prop
  | .top => True
  | .pausing n i => ¬ i < n
  | .doubling _ | .schedYield | .acquired => False

/-- Critical sections: the places at which one may begin, and the accesses they make, of which the
last one leaves no place to go on at. -/
structure CriticalSection (κ μ : Type) where
  begins : κ → Prop
  step : κ → μ → Option κ → μ → Prop

/-- Where a thread is; a call of `spin_lock` comes with the section that follows it. -/
inductive ThreadPlace (κ : Type)
  | outside
  | spinning (p : Place) (start : κ)
  /-- After a `*lock == 0` that held, before `atomic_cas`. -/
  | swapping (p : Place) (start : κ)
  | inside (k : κ)
  /-- At `_unlock`. -/
  | leaving
  deriving DecidableEq

/-- The place after an access of a critical section. -/
def ThreadPlace.goOn {κ : Type} : Option κ → ThreadPlace κ
  | some k => .inside k
  | none => .leaving

/-- Between `spin_lock` and `_unlock`. -/
def ThreadPlace.Holds {κ : Type} : ThreadPlace κ → Prop
  | .inside _ | .leaving => True
  | .outside | .spinning .. | .swapping .. => False

/-- The lock, the memory it guards and the threads. -/
structure Machine (ι κ μ : Type) where
  lock : UInt64
  memory : μ
  thread : ι → ThreadPlace κ

variable {ι κ μ : Type} [DecidableEq ι]

/-- The thread goes to another place. -/
def Machine.move (s : Machine ι κ μ) (i : ι) (place : ThreadPlace κ) : Machine ι κ μ :=
  { s with thread := Function.update s.thread i place }

/-- The globals of `spin_lock`, the value each thread calls it with, and the critical sections. -/
structure Program (ι κ μ : Type) where
  cpuNum : Int32
  pid : Int32
  value : ι → UInt64
  code : CriticalSection κ μ

/-- One access of a thread. -/
inductive Access (program : Program ι κ μ) (i : ι) : Machine ι κ μ → Machine ι κ μ → Prop
  | call {s : Machine ι κ μ} (start : κ) (here : s.thread i = .outside)
      (begins : program.code.begins start) :
      Access program i s (s.move i (.spinning .top start))
  | spin {s : Machine ι κ μ} {p : Place} {start : κ} (here : s.thread i = .spinning p start)
      (busy : p.ReadsLock → s.lock ≠ 0) :
      Access program i s (s.move i (.spinning (step program.cpuNum program.pid false p) start))
  | test {s : Machine ι κ μ} {p : Place} {start : κ} (here : s.thread i = .spinning p start)
      (reads : p.ReadsLock) (free : s.lock = 0) :
      Access program i s (s.move i (.swapping p start))
  | swap {s : Machine ι κ μ} {p : Place} {start : κ} (here : s.thread i = .swapping p start)
      (free : s.lock = 0) :
      Access program i s { s.move i (.inside start) with lock := program.value i }
  | miss {s : Machine ι κ μ} {p : Place} {start : κ} (here : s.thread i = .swapping p start)
      (busy : s.lock ≠ 0) :
      Access program i s (s.move i (.spinning (step program.cpuNum program.pid false p) start))
  | body {s : Machine ι κ μ} {k : κ} {next : Option κ} {memory : μ} (here : s.thread i = .inside k)
      (runs : program.code.step k s.memory next memory) :
      Access program i s { s.move i (.goOn next) with memory := memory }
  | unlock {s : Machine ι κ μ} (here : s.thread i = .leaving) :
      Access program i s { s.move i .outside with lock := 0 }

/-- The threads over any interleaving of their accesses, from a free lock on. -/
def threads (program : Program ι κ μ) (memory : μ) : TransitionSystem (Machine ι κ μ) where
  initial s := s = { lock := 0, memory := memory, thread := fun _ => .outside }
  step s s' := ∃ i, Access program i s s'

/-- No two threads are between `spin_lock` and `_unlock`. -/
def Exclusive (s : Machine ι κ μ) : Prop :=
  ∀ i j, (s.thread i).Holds → (s.thread j).Holds → i = j

/-! ## The holder of the lock -/

/-- The lock has the value of its holder, and is zero when it has none. -/
structure Guarded (program : Program ι κ μ) (s : Machine ι κ μ) : Prop where
  exclusive : Exclusive s
  lock : ∀ {i}, (s.thread i).Holds → s.lock = program.value i
  free : (∀ i, ¬ (s.thread i).Holds) → s.lock = 0

section Holder

variable {program : Program ι κ μ} {s s' : Machine ι κ μ} {i j : ι} {place : ThreadPlace κ}

@[simp]
theorem move_thread_self : (s.move i place).thread i = place := Function.update_self ..

theorem move_thread_of_ne (other : j ≠ i) : (s.move i place).thread j = s.thread j :=
  Function.update_of_ne other _ _

@[simp]
theorem goOn_holds (next : Option κ) : (ThreadPlace.goOn next).Holds := by
  cases next <;> trivial

omit [DecidableEq ι] in
/-- Nobody holds a lock that is zero. -/
theorem Guarded.not_holds (guarded : Guarded program s) (nonzero : ∀ i, program.value i ≠ 0)
    (free : s.lock = 0) (i : ι) : ¬ (s.thread i).Holds :=
  fun holds => nonzero i ((guarded.lock holds).symm.trans free)

/-- A thread moves without taking the lock or giving it back. -/
theorem Guarded.move (guarded : Guarded program s) (thread : s'.thread = (s.move i place).thread)
    (lock : s'.lock = s.lock) (same : place.Holds ↔ (s.thread i).Holds) : Guarded program s' := by
  have holds : ∀ j, (s'.thread j).Holds ↔ (s.thread j).Holds := by
    intro j
    rw [thread]
    by_cases own : j = i
    · subst own
      rw [move_thread_self]
      exact same
    · rw [move_thread_of_ne own]
  constructor
  case exclusive =>
    intro j k here there
    exact guarded.exclusive j k ((holds j).mp here) ((holds k).mp there)
  case lock =>
    intro j here
    rw [lock]
    exact guarded.lock ((holds j).mp here)
  case free =>
    intro nobody
    rw [lock]
    exact guarded.free fun j here => nobody j ((holds j).mpr here)

/-- A thread takes a lock that nobody holds. -/
theorem Guarded.take (nobody : ∀ j, ¬ (s.thread j).Holds) (place_holds : place.Holds)
    (thread : s'.thread = (s.move i place).thread) (lock : s'.lock = program.value i) :
    Guarded program s' := by
  have only : ∀ {j}, (s'.thread j).Holds → j = i := by
    intro j here
    by_contra other
    rw [thread, move_thread_of_ne other] at here
    exact nobody j here
  constructor
  case exclusive => exact fun j k here there => (only here).trans (only there).symm
  case lock =>
    intro j here
    rw [only here, lock]
  case free =>
    intro none_holds
    refine (none_holds i ?_).elim
    rw [thread, move_thread_self]
    exact place_holds

/-- The holder gives the lock back. -/
theorem Guarded.give (guarded : Guarded program s) (holds : (s.thread i).Holds)
    (thread : s'.thread = (s.move i .outside).thread) (lock : s'.lock = 0) :
    Guarded program s' := by
  have nobody : ∀ j, ¬ (s'.thread j).Holds := by
    intro j here
    rw [thread] at here
    by_cases own : j = i
    · subst own
      rw [move_thread_self] at here
      exact here
    · rw [move_thread_of_ne own] at here
      exact own (guarded.exclusive j i here holds)
  exact ⟨fun j _ here => (nobody j here).elim, fun here => (nobody _ here).elim, fun _ => lock⟩

theorem Access.guarded (access : Access program i s s') (nonzero : ∀ i, program.value i ≠ 0)
    (guarded : Guarded program s) : Guarded program s' := by
  cases access with
  | call start here | spin here | test here | miss here =>
      exact guarded.move rfl rfl (by rw [here]; exact Iff.rfl)
  | @swap p start here free =>
      have holds : (ThreadPlace.inside start).Holds := trivial
      exact .take (guarded.not_holds nonzero free) holds rfl rfl
  | body here runs =>
      exact guarded.move rfl rfl (by rw [here]; exact iff_of_true (goOn_holds _) trivial)
  | unlock here => exact guarded.give (by rw [here]; trivial) rfl rfl

theorem guarded_isInvariant (nonzero : ∀ i, program.value i ≠ 0) (memory : μ) :
    (threads program memory).IsInvariant (Guarded program) where
  initial := by
    rintro s rfl
    exact ⟨fun _ _ here => here.elim, fun here => here.elim, fun _ => rfl⟩
  step guarded access := access.elim fun _ access => access.guarded nonzero guarded

end Holder

/-! ## What the lock guards -/

/-- Each critical section finds the memory as it should be and leaves it so; `during` is what holds
at the places inside. -/
structure CriticalSection.Keeps (code : CriticalSection κ μ) (holds : μ → Prop)
    (during : κ → μ → Prop) : Prop where
  enter : ∀ {k memory}, code.begins k → holds memory → during k memory
  goOn : ∀ {k memory k' memory'}, during k memory → code.step k memory (some k') memory' →
    during k' memory'
  leave : ∀ {k memory memory'}, during k memory → code.step k memory none memory' →
    holds memory'

/-- The memory is as it should be unless a thread is inside, and then it is as it should be there.
-/
structure Kept (program : Program ι κ μ) (holds : μ → Prop) (during : κ → μ → Prop)
    (s : Machine ι κ μ) : Prop where
  guarded : Guarded program s
  start : ∀ {i p k}, s.thread i = .spinning p k ∨ s.thread i = .swapping p k →
    program.code.begins k
  outside : (∀ i k, s.thread i ≠ .inside k) → holds s.memory
  inside : ∀ {i k}, s.thread i = .inside k → during k s.memory

section Memory

variable {program : Program ι κ μ} {holds : μ → Prop} {during : κ → μ → Prop}
  {s s' : Machine ι κ μ} {i j : ι} {place : ThreadPlace κ}

/-- A thread that is not inside moves without entering. -/
theorem Kept.move (kept : Kept program holds during s) (guarded : Guarded program s')
    (thread : s'.thread = (s.move i place).thread) (memory : s'.memory = s.memory)
    (before : ∀ k, s.thread i ≠ .inside k) (after : ∀ k, place ≠ .inside k)
    (start : ∀ {p k}, place = .spinning p k ∨ place = .swapping p k → program.code.begins k) :
    Kept program holds during s' := by
  constructor
  case guarded => exact guarded
  case start =>
    intro j p k here
    rw [thread] at here
    by_cases own : j = i
    · subst own
      rw [move_thread_self] at here
      exact start here
    · rw [move_thread_of_ne own] at here
      exact kept.start here
  case outside =>
    intro nobody
    rw [memory]
    refine kept.outside fun j k here => ?_
    by_cases own : j = i
    · exact before k (own ▸ here)
    · refine nobody j k ?_
      rw [thread, move_thread_of_ne own]
      exact here
  case inside =>
    intro j k here
    rw [memory]
    rw [thread] at here
    by_cases own : j = i
    · subst own
      rw [move_thread_self] at here
      exact (after k here).elim
    · rw [move_thread_of_ne own] at here
      exact kept.inside here

omit [DecidableEq ι] in
/-- The thread that holds the lock is the only one inside. -/
theorem Kept.alone (guarded : Guarded program s') (holder : (s'.thread i).Holds)
    (start : ∀ {j p k}, s'.thread j = .spinning p k ∨ s'.thread j = .swapping p k →
      program.code.begins k)
    (inside : ∀ k, s'.thread i = .inside k → during k s'.memory)
    (outside : (∀ k, s'.thread i ≠ .inside k) → holds s'.memory) :
    Kept program holds during s' := by
  refine ⟨guarded, start, fun nobody => outside (nobody i), fun {j k} here => ?_⟩
  have own : j = i := guarded.exclusive j i (by rw [here]; trivial) holder
  exact inside k (own ▸ here)

theorem Access.kept (access : Access program i s s') (nonzero : ∀ i, program.value i ≠ 0)
    (keeps : program.code.Keeps holds during) (kept : Kept program holds during s) :
    Kept program holds during s' := by
  have guarded' := access.guarded nonzero kept.guarded
  -- a thread whose next place is inside or at `_unlock` leaves the calls of the others alone
  have start : ∀ {s' : Machine ι κ μ} {place : ThreadPlace κ},
      s'.thread = (s.move i place).thread → place.Holds →
      ∀ {j p k}, s'.thread j = .spinning p k ∨ s'.thread j = .swapping p k →
        program.code.begins k := by
    intro s' place thread place_holds j p k here
    rw [thread] at here
    by_cases own : j = i
    · subst own
      rw [move_thread_self] at here
      rcases here with rfl | rfl <;> exact place_holds.elim
    · rw [move_thread_of_ne own] at here
      exact kept.start here
  cases access with
  | call start' here begins =>
      refine kept.move guarded' rfl rfl (by simp [here]) (by simp) fun here => ?_
      rcases here with here | here <;> cases here
      exact begins
  | @spin p start' here =>
      refine kept.move guarded' rfl rfl (by simp [here]) (by simp) fun there => ?_
      rcases there with there | there <;> cases there
      exact kept.start (Or.inl here)
  | @miss p start' here =>
      refine kept.move guarded' rfl rfl (by simp [here]) (by simp) fun there => ?_
      rcases there with there | there <;> cases there
      exact kept.start (Or.inr here)
  | @test p start' here =>
      refine kept.move guarded' rfl rfl (by simp [here]) (by simp) fun there => ?_
      rcases there with there | there <;> cases there
      exact kept.start (Or.inl here)
  | @swap p start' here free =>
      have nobody := kept.guarded.not_holds nonzero free
      have clean : holds s.memory :=
        kept.outside fun j k there => nobody j (by rw [there]; trivial)
      have own : (s.move i (.inside start')).thread i = .inside start' := move_thread_self
      have holder : (ThreadPlace.inside start').Holds := trivial
      refine .alone (i := i) guarded' (by rw [own]; exact holder) (start rfl holder) ?_ ?_
      · intro k there
        cases own.symm.trans there
        exact keeps.enter (kept.start (Or.inr here)) clean
      · exact fun none_inside => (none_inside start' own).elim
  | @body k next memory here runs =>
      have own : (s.move i (.goOn next)).thread i = .goOn next := move_thread_self
      refine .alone (i := i) guarded' (by rw [own]; exact goOn_holds next)
        (start rfl (goOn_holds next)) ?_ ?_
      · intro k' there
        have place : ThreadPlace.goOn next = .inside k' := own.symm.trans there
        cases next with
        | none => cases place
        | some k'' =>
            cases place
            exact keeps.goOn (kept.inside here) runs
      · intro none_inside
        cases next with
        | none => exact keeps.leave (kept.inside here) runs
        | some k' => exact (none_inside k' own).elim
  | unlock here =>
      exact kept.move guarded' rfl rfl (by simp [here]) (by simp) (by simp)

/-- The rule of the lock: what each critical section keeps holds whenever no thread is inside. -/
theorem kept_isInvariant (nonzero : ∀ i, program.value i ≠ 0)
    (keeps : program.code.Keeps holds during) {memory : μ} (clean : holds memory) :
    (threads program memory).IsInvariant (Kept program holds during) where
  initial := by
    rintro s rfl
    exact ⟨(guarded_isInvariant nonzero memory).initial _ rfl, by simp, fun _ => clean, by simp⟩
  step kept access := access.elim fun _ access => access.kept nonzero keeps kept

end Memory

/-! ## Exclusion -/

/-- A call of `spin_lock` that nothing interrupts takes a lock that is zero. -/
theorem reachable_inside {program : Program ι κ μ} {memory : μ} {s : Machine ι κ μ} {i : ι}
    {start : κ} (reachable : (threads program memory).Reachable s)
    (begins : program.code.begins start) (here : s.thread i = .outside) (free : s.lock = 0) :
    (threads program memory).Reachable
      { s.move i (.inside start) with lock := program.value i } := by
  have called := reachable.step ⟨i, .call start here begins⟩
  have tested := called.step ⟨i, .test move_thread_self trivial free⟩
  have taken := tested.step ⟨i, .swap move_thread_self free⟩
  simpa [Machine.move] using taken

/-- For two threads or more: at most one of them is between `spin_lock` and `_unlock` at any time,
in every interleaving, exactly if none calls `spin_lock` with the value zero. -/
theorem exclusive_iff [Nontrivial ι] (program : Program ι κ μ) (memory : μ)
    (some_section : ∃ start, program.code.begins start) :
    (∀ s, (threads program memory).Reachable s → Exclusive s) ↔ ∀ i, program.value i ≠ 0 := by
  constructor
  · intro exclusive i zero
    obtain ⟨j, other⟩ := exists_ne i
    obtain ⟨start, begins⟩ := some_section
    have begun := TransitionSystem.reachable_of_initial
      (show (threads program memory).initial _ from rfl)
    have first := reachable_inside (i := i) begun begins rfl rfl
    have second := reachable_inside (i := j) first begins (move_thread_of_ne other) zero
    refine other (exclusive _ second j i ?_ ?_)
    · exact (congrArg ThreadPlace.Holds move_thread_self).mpr trivial
    · refine (congrArg ThreadPlace.Holds (move_thread_of_ne other.symm)).mpr ?_
      exact (congrArg ThreadPlace.Holds move_thread_self).mpr trivial
  · intro nonzero s reachable
    exact ((guarded_isInvariant nonzero memory).of_reachable reachable).exclusive

/-- Two threads with `_lock` around one access. -/
theorem exclusive_iff_two :
    let program : Program (Fin 2) Unit Nat :=
      { cpuNum := 4, pid := -1, value := fun _ => 1
        code := { begins := fun _ => True, step := fun _ _ next _ => next = none } }
    (∀ s, (threads program 0).Reachable s → Exclusive s) ↔ ∀ i, program.value i ≠ 0 :=
  exclusive_iff _ 0 ⟨(), trivial⟩

end SpinLock
end OstrichServer
