import Mathlib.Data.List.Infix
import Mathlib.Tactic

/-!
# Poll registration in `eventpoll.c`

An event with its `active` and `flag` fields, the kernel's entry for its descriptor, and the
functions that start, add and modify it.  None of them looks at the result of `epoll_ctl`, and
`epoll_event_modify` leaves the event as it is, so that the three agree only in runs where every
modification asks for nothing new of an event that was started with `EPOLLET` among its flags.
-/

namespace OstrichServer
namespace EventPoll

/-! ## The kernel -/

/-- `EPOLLET` -/
def epollet : UInt32 := 0x80000000

/-- `EPEDGE` of `enum EPTRIGGER`. -/
def epedge : UInt32 := 2

/-- The kernel's entry for a descriptor: its interest set, if it is registered, and whether a call
of `epoll_ctl` has failed. -/
structure Kernel where
  interest : Option UInt32
  failed : Bool
  deriving DecidableEq

/-- `EPOLL_CTL_ADD` and `EPOLL_CTL_MOD`. -/
inductive CtlOp
  | add
  | mod
  deriving DecidableEq

/-- `epoll_ctl` on the descriptor, with the `events` of its argument. -/
def epollCtl (kernel : Kernel) (op : CtlOp) (events : UInt32) : Kernel × Int :=
  match op, kernel.interest with
  | .add, none => ({ kernel with interest := some events }, 0)
  | .add, some _ => ({ kernel with failed := true }, -1)
  | .mod, some _ => ({ kernel with interest := some events }, 0)
  | .mod, none => ({ kernel with failed := true }, -1)

/-! ## The functions of `eventpoll.c` -/

/-- The fields of `struct thread_event` for polling; `flag` is the bits of its `int`. -/
structure Event where
  active : Int
  flag : UInt32
  deriving DecidableEq

/-- An event and the kernel's entry for its descriptor. -/
structure PollState where
  event : Event
  kernel : Kernel
  deriving DecidableEq

def osOk : Int := 0

/-- `epoll_event_start` -/
def epollEventStart (s : PollState) (flag : UInt32) : PollState × Int :=
  if s.event.active ≠ 0 then (s, osOk)
  else
    let events := flag ||| epollet
    ({ event := { active := 1, flag := flag }, kernel := (epollCtl s.kernel .add events).1 }, osOk)

/-- `epoll_event_add` -/
def epollEventAdd (s : PollState) (flag : UInt32) : PollState × Int :=
  if s.event.active ≠ 0 then (s, osOk) else ((epollEventStart s flag).1, osOk)

/-- `epoll_event_modify` -/
def epollEventModify (s : PollState) (flag : UInt32) : PollState × Int :=
  let (op, event) :=
    if s.event.active = 0 then (CtlOp.add, flag ||| epedge) else (CtlOp.mod, s.event.flag ||| flag)
  ({ s with kernel := (epollCtl s.kernel op event).1 }, osOk)

/-! ## Calls -/

/-- A call for the event. -/
inductive Call
  | start (flag : UInt32)
  | add (flag : UInt32)
  | modify (flag : UInt32)

/-- The state after a call, and what it returns. -/
def call (s : PollState) : Call → PollState × Int
  | .start flag => epollEventStart s flag
  | .add flag => epollEventAdd s flag
  | .modify flag => epollEventModify s flag

/-- The state after calls one after another. -/
def callAll (s : PollState) (calls : List Call) : PollState :=
  calls.foldl (fun s c => (call s c).1) s

/-- An event that is not active, with any `flag`, whose descriptor is not registered. -/
def idle (flag : UInt32) : PollState where
  event := { active := 0, flag := flag }
  kernel := { interest := none, failed := false }

/-- The flags of a call that takes effect: one that starts an inactive event, or a modification. -/
def effective (s : PollState) : Call → UInt32
  | .start flag | .add flag => if s.event.active ≠ 0 then 0 else flag
  | .modify flag => flag

/-- All flags of the calls of a run that took effect. -/
def given : PollState → List Call → UInt32
  | _, [] => 0
  | s, c :: calls => effective s c ||| given (call s c).1 calls

/-- The registration matches the event after calls with these flags took effect. -/
structure Matches (s : PollState) (flags : UInt32) : Prop where
  active_iff : s.event.active = 1 ↔ s.kernel.interest.isSome
  interest : ∀ events, s.kernel.interest = some events →
    events = epollet ||| flags ∧ s.event.flag = flags
  noFailure : s.kernel.failed = false

/-- A modification is of an active event, which has `EPOLLET` and the new flags in its `flag`. -/
def AsksNothingNew (s : PollState) : Call → Prop
  | .start _ | .add _ => True
  | .modify flag => s.event.active ≠ 0 ∧ s.event.flag ||| flag = s.event.flag ∧
      epollet ||| s.event.flag = s.event.flag

/-- Every modification of a run asks for nothing new. -/
def AskNothingNew : PollState → List Call → Prop
  | _, [] => True
  | s, c :: calls => AsksNothingNew s c ∧ AskNothingNew (call s c).1 calls

/-! ## Runs -/

/-- Every call returns `OS_OK`. -/
theorem call_returns_ok (s : PollState) (c : Call) : (call s c).2 = osOk := by
  cases c with
  | start flag =>
      rw [call, epollEventStart]
      split <;> rfl
  | add flag =>
      rw [call, epollEventAdd]
      split <;> rfl
  | modify flag => rfl

/-- An event that was not started and has no flags, or one that was started with all of them. -/
inductive Settled (flags : UInt32) : PollState → Prop
  | idle (flag : UInt32) (unused : flags = 0) : Settled flags (idle flag)
  | started : Settled flags ⟨⟨1, flags⟩, ⟨some (epollet ||| flags), false⟩⟩

theorem Settled.matches {s : PollState} {flags : UInt32} (settled : Settled flags s) :
    Matches s flags := by
  cases settled with
  | idle flag unused =>
      constructor
      · exact iff_of_false zero_ne_one Bool.noConfusion
      · intro events registered
        cases registered
      · rfl
  | started =>
      constructor
      · exact iff_of_true rfl rfl
      · intro events registered
        exact ⟨(Option.some.inj registered).symm, rfl⟩
      · rfl

section Steps

variable {s : PollState} {flags : UInt32}

/-- Starting an idle event. -/
theorem settled_start (flag : UInt32) :
    Settled flag ⟨⟨1, flag⟩, (epollCtl ⟨none, false⟩ .add (flag ||| epollet)).1⟩ := by
  rw [UInt32.or_comm]
  exact .started

/-- A call that asks for nothing new leads from a settled state to a settled one. -/
theorem settled_call (settled : Settled flags s) {c : Call} (nothingNew : AsksNothingNew s c) :
    Settled (flags ||| effective s c) (call s c).1 := by
  cases settled with
  | idle old unused =>
      cases c with
      | start flag =>
          rw [unused, UInt32.zero_or]
          exact settled_start flag
      | add flag =>
          rw [unused, UInt32.zero_or]
          exact settled_start flag
      | modify flag => exact (nothingNew.1 rfl).elim
  | started =>
      cases c with
      | start flag =>
          rw [effective, if_pos one_ne_zero, UInt32.or_zero]
          exact .started
      | add flag =>
          rw [effective, if_pos one_ne_zero, UInt32.or_zero]
          exact .started
      | modify flag =>
          obtain ⟨_, known, trigger⟩ := nothingNew
          have known : flags ||| flag = flags := known
          have trigger : epollet ||| flags = flags := trigger
          have next : (call ⟨⟨1, flags⟩, ⟨some (epollet ||| flags), false⟩⟩ (.modify flag)).1 =
              ⟨⟨1, flags⟩, ⟨some (flags ||| flag), false⟩⟩ := rfl
          have settled : Settled flags ⟨⟨1, flags⟩, ⟨some (epollet ||| flags), false⟩⟩ := .started
          rw [trigger] at settled
          rw [next, effective, known]
          exact settled

/-- From a settled state a call leads to one that matches exactly when it asks for nothing new. -/
theorem matches_call_iff (settled : Settled flags s) (c : Call) :
    Matches (call s c).1 (flags ||| effective s c) ↔ AsksNothingNew s c := by
  refine ⟨fun after => ?_, fun nothingNew => (settled_call settled nothingNew).matches⟩
  cases c with
  | start flag => trivial
  | add flag => trivial
  | modify flag =>
      cases settled with
      | idle old unused => exact (zero_ne_one (after.active_iff.mpr rfl)).elim
      | started =>
          obtain ⟨events, known⟩ := after.interest _ rfl
          have known : flags = flags ||| flag := known
          have events : flags ||| flag = epollet ||| (flags ||| flag) := events
          rw [← known] at events
          exact ⟨one_ne_zero, known.symm, events.symm⟩

end Steps

theorem matches_run_iff {s : PollState} {flags : UInt32} (settled : Settled flags s)
    (calls : List Call) :
    (∀ before, before <+: calls → Matches (callAll s before) (flags ||| given s before)) ↔
      AskNothingNew s calls := by
  induction calls generalizing s flags with
  | nil =>
      refine iff_of_true (fun before isPrefix => ?_) trivial
      rw [List.prefix_nil.mp isPrefix, given, UInt32.or_zero]
      exact settled.matches
  | cons c calls induction =>
      constructor
      · intro all
        have first := all [c] (List.cons_prefix_cons.mpr ⟨rfl, List.nil_prefix⟩)
        rw [given, given, UInt32.or_zero] at first
        have nothingNew := (matches_call_iff settled c).mp first
        refine ⟨nothingNew, (induction (settled_call settled nothingNew)).mp ?_⟩
        intro before isPrefix
        rw [UInt32.or_assoc]
        exact all (c :: before) (List.cons_prefix_cons.mpr ⟨rfl, isPrefix⟩)
      · rintro ⟨nothingNew, later⟩ before isPrefix
        cases before with
        | nil =>
            rw [given, UInt32.or_zero]
            exact settled.matches
        | cons c' before =>
            obtain ⟨rfl, rest⟩ := List.cons_prefix_cons.mp isPrefix
            rw [given, ← UInt32.or_assoc]
            exact (induction (settled_call settled nothingNew)).mpr later before rest

/-- The registration matches the event after every call of a run exactly when all of its
modifications ask for nothing new. -/
theorem matches_iff (flag : UInt32) (calls : List Call) :
    (∀ before, before <+: calls →
      Matches (callAll (idle flag) before) (given (idle flag) before)) ↔
    AskNothingNew (idle flag) calls := by
  rw [← matches_run_iff (.idle flag rfl)]
  simp only [UInt32.zero_or]

/-- A start with `EPOLLIN`, a modification with `EPOLLOUT`: the kernel's set is without `EPOLLET`,
and `flag` without `EPOLLOUT`. -/
theorem not_matches_modified :
    callAll (idle 0) [.start 1, .modify 4] = ⟨⟨1, 1⟩, ⟨some 5, false⟩⟩ ∧
    ¬ Matches (callAll (idle 0) [.start 1, .modify 4]) (given (idle 0) [.start 1, .modify 4]) := by
  refine ⟨rfl, fun after => ?_⟩
  exact absurd (after.interest 5 rfl).1 (by decide)

/-- A modification of an inactive event registers its descriptor, and starting it fails. -/
example : callAll (idle 0) [.modify 1, .start 1] = ⟨⟨1, 1⟩, ⟨some 3, true⟩⟩ := by decide

end EventPoll
end OstrichServer
