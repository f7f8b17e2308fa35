import OstrichServer.SpinLock.Exclusion
import Mathlib.Data.Finset.Basic

/-!
# Threads that replace the value of one entry

The second half of `dict_replace` by any number of threads on one entry: `_lock`, a copy of the
entry, `dict_set_val` with a `val_dup` that allocates, `dict_free_val` on the copy, `_unlock`.
-/

namespace OstrichServer
namespace Dictionary

open SpinLock

/-- The value of an entry and the blocks `val_dup` allocated which `val_free` has not freed. -/
structure EntryValue (P : Type) where
  val : P
  live : Finset P
  /-- A block was freed that was not allocated. -/
  fault : Bool

/-- Where a thread is between `_lock` and `_unlock`. -/
inductive ReplacePlace (P : Type)
  /-- `auxentry = *entry` -/
  | copy
  /-- `dict_set_val(d, entry, val)` -/
  | setVal (auxentry : P)
  /-- `dict_free_val(d, &auxentry)` -/
  | freeVal (auxentry : P)
  deriving DecidableEq

variable {P : Type} [DecidableEq P]

/-- `val_free` -/
def EntryValue.valFree (entry : EntryValue P) (p : P) : EntryValue P :=
  if p ∈ entry.live then { entry with live := entry.live.erase p } else { entry with fault := true }

/-- One access of `dict_replace` to the entry. -/
inductive ReplaceStep :
    ReplacePlace P → EntryValue P → Option (ReplacePlace P) → EntryValue P → Prop
  | copy (entry : EntryValue P) : ReplaceStep .copy entry (some (.setVal entry.val)) entry
  /-- `val_dup` returns a block that is not in use. -/
  | setVal (auxentry p : P) (entry : EntryValue P) (fresh : p ∉ entry.live) :
      ReplaceStep (.setVal auxentry) entry (some (.freeVal auxentry))
        { entry with val := p, live := insert p entry.live }
  | freeVal (auxentry : P) (entry : EntryValue P) :
      ReplaceStep (.freeVal auxentry) entry none (entry.valFree auxentry)

/-- The part of `dict_replace` under the lock of the entry. -/
def replaceSection : CriticalSection (ReplacePlace P) (EntryValue P) where
  begins k := k = .copy
  step := ReplaceStep

/-- `dict_replace` as every thread calls it: `_lock` passes 1. -/
def replaceProgram (ι P : Type) [DecidableEq P] (cpuNum pid : Int32) :
    Program ι (ReplacePlace P) (EntryValue P) where
  cpuNum := cpuNum
  pid := pid
  value _ := 1
  code := replaceSection

/-- The value is the only block allocated, and nothing else was ever freed. -/
def EntryValue.Clean (entry : EntryValue P) : Prop :=
  entry.live = {entry.val} ∧ entry.fault = false

/-- What holds between `_lock` and `_unlock`. -/
def ReplacePlace.During : ReplacePlace P → EntryValue P → Prop
  | .copy, entry => entry.Clean
  | .setVal auxentry, entry => entry.Clean ∧ auxentry = entry.val
  | .freeVal auxentry, entry =>
      entry.live = {auxentry, entry.val} ∧ auxentry ≠ entry.val ∧ entry.fault = false

theorem replaceSection_keeps :
    (replaceSection (P := P)).Keeps EntryValue.Clean ReplacePlace.During where
  enter := by
    rintro k entry rfl clean
    exact clean
  goOn := by
    intro k entry k' entry' during step
    cases step with
    | copy => exact ⟨during, rfl⟩
    | setVal auxentry p entry fresh =>
        obtain ⟨⟨live, fault⟩, rfl⟩ := during
        have distinct : entry.val ≠ p := by
          rintro rfl
          exact fresh (by rw [live]; exact Finset.mem_singleton_self _)
        refine ⟨?_, distinct, fault⟩
        rw [live]
        exact Finset.pair_comm p entry.val
  leave := by
    intro k entry entry' during step
    cases step with
    | freeVal auxentry =>
        obtain ⟨live, distinct, fault⟩ := during
        have allocated : auxentry ∈ entry.live := by
          rw [live]
          exact Finset.mem_insert_self _ _
        have freed : entry.valFree auxentry =
            { entry with live := entry.live.erase auxentry } := if_pos allocated
        rw [freed]
        refine ⟨?_, fault⟩
        rw [live]
        exact Finset.erase_insert (by simpa using distinct)

/-- Threads that replace the value of one entry, in any interleaving: no value is freed twice, the
value of the entry is always allocated, and when no thread is inside, it is the only one. -/
theorem dict_replace_frees_once {ι : Type} [DecidableEq ι] (cpuNum pid : Int32)
    (entry : EntryValue P) (clean : entry.Clean)
    (s : Machine ι (ReplacePlace P) (EntryValue P))
    (reachable : (threads (replaceProgram ι P cpuNum pid) entry).Reachable s) :
    s.memory.fault = false ∧ s.memory.val ∈ s.memory.live ∧
      ((∀ i, ¬ (s.thread i).Holds) → s.memory.live = {s.memory.val}) := by
  have nonzero : ∀ i, (replaceProgram ι P cpuNum pid).value i ≠ 0 := by
    intro i
    simp [replaceProgram]
  have kept := (kept_isInvariant nonzero replaceSection_keeps clean).of_reachable reachable
  have held : s.memory.fault = false ∧ s.memory.val ∈ s.memory.live := by
    by_cases nobody : ∀ i k, s.thread i ≠ .inside k
    · obtain ⟨live, fault⟩ := kept.outside nobody
      exact ⟨fault, by rw [live]; exact Finset.mem_singleton_self _⟩
    · obtain ⟨i, k, here⟩ : ∃ i k, s.thread i = .inside k := by simpa using nobody
      have during := kept.inside here
      cases k with
      | copy => exact ⟨during.2, by rw [during.1]; exact Finset.mem_singleton_self _⟩
      | setVal auxentry =>
          exact ⟨during.1.2, by rw [during.1.1]; exact Finset.mem_singleton_self _⟩
      | freeVal auxentry =>
          refine ⟨during.2.2, ?_⟩
          rw [during.1]
          exact Finset.mem_insert_of_mem (Finset.mem_singleton_self _)
  refine ⟨held.1, held.2, fun nobody => (kept.outside fun i k here => ?_).1⟩
  exact nobody i (by rw [here]; trivial)

section Alone

variable {ι : Type} [DecidableEq ι] {cpuNum pid : Int32} {entry : EntryValue P}
  {s : Machine ι (ReplacePlace P) (EntryValue P)} {i : ι} {p : P}

/-- A replacement that nothing interrupts, up to `dict_free_val`. -/
theorem reachable_freeVal (reachable : (threads (replaceProgram ι P cpuNum pid) entry).Reachable s)
    (here : s.thread i = .outside) (free : s.lock = 0) (fresh : p ∉ s.memory.live) :
    (threads (replaceProgram ι P cpuNum pid) entry).Reachable
      { lock := 1
        memory := { s.memory with val := p, live := insert p s.memory.live }
        thread := (s.move i (.inside (.freeVal s.memory.val))).thread } := by
  have begins : (replaceProgram ι P cpuNum pid).code.begins .copy := rfl
  have inside := reachable_inside reachable begins here free
  have copied := inside.step ⟨i, .body move_thread_self (.copy _)⟩
  have set := copied.step ⟨i, .body move_thread_self (.setVal _ p _ fresh)⟩
  simpa [Machine.move, ThreadPlace.goOn, replaceProgram] using set

/-- A whole replacement that nothing interrupts. -/
theorem reachable_replaced (reachable : (threads (replaceProgram ι P cpuNum pid) entry).Reachable s)
    (here : s.thread i = .outside) (free : s.lock = 0) (fresh : p ∉ s.memory.live) :
    (threads (replaceProgram ι P cpuNum pid) entry).Reachable
      { lock := 0
        memory := EntryValue.valFree { s.memory with val := p, live := insert p s.memory.live }
          s.memory.val
        thread := s.thread } := by
  have set := reachable_freeVal reachable here free fresh
  have freed := set.step ⟨i, .body move_thread_self (.freeVal s.memory.val _)⟩
  have left := freed.step ⟨i, .unlock move_thread_self⟩
  simpa [Machine.move, ThreadPlace.goOn, ← here] using left

end Alone

/-- Thread 0 has replaced 7 by 8, thread 1 has set 9 and not yet freed 8, and thread 2 waits. -/
theorem dict_replace_frees_once_turns :
    let entry : EntryValue Nat := { val := 7, live := {7}, fault := false }
    ∃ s : Machine (Fin 3) (ReplacePlace Nat) (EntryValue Nat),
      (threads (replaceProgram (Fin 3) Nat 4 (-1)) entry).Reachable s ∧
      s.thread 1 = .inside (.freeVal 8) ∧ s.thread 2 = .spinning .top .copy ∧
      s.memory.val = 9 ∧ s.memory.live = {9, 8} ∧
      s.memory.fault = false ∧ s.memory.val ∈ s.memory.live ∧
      ((∀ i, ¬ (s.thread i).Holds) → s.memory.live = {s.memory.val}) := by
  intro entry
  have start : (threads (replaceProgram (Fin 3) Nat 4 (-1)) entry).Reachable
      { lock := 0, memory := entry, thread := fun _ => .outside } :=
    TransitionSystem.reachable_of_initial rfl
  have first := reachable_replaced (i := 0) (p := 8) start rfl rfl (by decide)
  have second := reachable_freeVal (i := 1) (p := 9) first rfl rfl (by decide)
  have begins : (replaceProgram (Fin 3) Nat 4 (-1)).code.begins .copy := rfl
  have waits := second.step ⟨2, .call .copy rfl begins⟩
  exact ⟨_, waits, rfl, rfl, rfl, by decide,
    dict_replace_frees_once 4 (-1) entry ⟨rfl, rfl⟩ _ waits⟩

end Dictionary
end OstrichServer
