import OstrichServer.AtomicList.HeadPointer
import Mathlib.Logic.Function.Basic

/-!
# The operations of `atomiclist.c`

`atomic_list_push`, `atomic_list_pop` and `atomic_list_popall`, one access to the shared memory at a
time: a thread carries the local variables of its call, and each step reads the head, reads or
writes one link field, or tries to swap the head.
-/

namespace OstrichServer
namespace AtomicList

/-- `al->head` and the link field, at `al->offset`, of every node. -/
structure Memory where
  head : Word
  next : Word → Word

/-- Where a call goes on after one access, or what it returned. -/
inductive Progress (κ : Type)
  | running (pc : κ)
  | returned (p : Word)
  deriving DecidableEq

/-- `atomic_list_init` -/
def atomicListInit (next : Word → Word) : Memory := ⟨setPointerVersion 0 0, next⟩

/-- `atomic_list_empty` -/
def atomicListEmpty (m : Memory) : Bool := alPointer m.head = 0

/-- The accesses of `atomic_list_push`, with the local variable `head`. -/
inductive PushPc
  | load
  | link (head : Word)
  | swap (head : Word)
  deriving DecidableEq

/-- One access of `atomic_list_push(al, data)`. -/
def atomicListPush (data : Word) (m : Memory) : PushPc → Memory × Progress PushPc
  | .load => (m, .running (.link m.head))
  | .link head =>
      ({ m with next := Function.update m.next data (alPointer head) }, .running (.swap head))
  | .swap head =>
      if m.head = head then
        ({ m with head := setPointerVersion data (alVersion head) }, .returned (alPointer head))
      else (m, .running .load)

/-- The accesses of `atomic_list_pop`, with the local variables `temp` and `next`. -/
inductive PopPc
  | load
  | follow (temp : Word)
  | swap (temp next : Word)
  | clear (temp : Word)
  deriving DecidableEq

/-- One access of `atomic_list_pop(al)`. -/
def atomicListPop (m : Memory) : PopPc → Memory × Progress PopPc
  | .load => if alPointer m.head = 0 then (m, .returned 0) else (m, .running (.follow m.head))
  | .follow temp =>
      (m, .running (.swap temp
        (setPointerVersion (m.next (alPointer temp)) (alVersion temp + 1))))
  | .swap temp next =>
      if m.head = temp then ({ m with head := next }, .running (.clear temp))
      else (m, .running .load)
  | .clear temp =>
      ({ m with next := Function.update m.next (alPointer temp) 0 }, .returned (alPointer temp))

/-- The accesses of `atomic_list_popall`, with the local variable `temp`. -/
inductive PopallPc
  | load
  | swap (temp : Word)
  deriving DecidableEq

/-- One access of `atomic_list_popall(al)`. -/
def atomicListPopall (m : Memory) : PopallPc → Memory × Progress PopallPc
  | .load => if alPointer m.head = 0 then (m, .returned 0) else (m, .running (.swap m.head))
  | .swap temp =>
      if m.head = temp then
        ({ m with head := setPointerVersion 0 (alVersion temp + 1) }, .returned (alPointer temp))
      else (m, .running .load)

@[simp]
theorem alPointer_init (next : Word → Word) : alPointer (atomicListInit next).head = 0 :=
  alPointer_setPointerVersion canonical_zero 0

@[simp]
theorem version_init (next : Word → Word) : version (atomicListInit next).head = 0 :=
  version_setPointerVersion 0 0

end AtomicList
end OstrichServer
