import OstrichServer.ChainedDictionary.Operations
import OstrichServer.Foundations.Blocks
import OstrichServer.Foundations.Heap

/-!
# The dictionary in memory

The functions of `arrays.h` on the blocks they allocate and free: the table of buckets, an entry
with its `p_next` for each value, and a copy of each key.  An access to memory that is not allocated
gives `none`, and so does a walk along a chain that meets more entries than there are blocks.  The
values that `pf_os_free` is called with are listed in order.
-/

namespace OstrichServer
namespace ChainedDictionary
namespace Memory

open Dictionary

/-- A `dictionary_entry_t` with its pointers. -/
structure LinkedEntry (υ : Type) where
  pszKey : Nat
  pValue : υ
  pNext : Nat

/-- What a block contains. -/
inductive MemoryBlock (υ : Type)
  /-- From `os_malloc`, not written yet. -/
  | fresh
  | text (s : CString)
  | entry (fields : LinkedEntry υ)
  | pointers (cells : Block Nat)

/-- A `dictionary_t` with its pointer. -/
structure DictionaryRef where
  iSize : Int32
  pEntries : Nat

/-- The heap, and the values that callbacks got. -/
structure State (υ : Type) where
  heap : Heap (MemoryBlock υ)
  handed : List υ

variable {υ : Type}

/-! ## Accesses -/

def textAt (heap : Heap (MemoryBlock υ)) (a : Nat) : Option CString :=
  match heap.block a with
  | some (.text s) => some s
  | _ => none

def entryAt (heap : Heap (MemoryBlock υ)) (a : Nat) : Option (LinkedEntry υ) :=
  match heap.block a with
  | some (.entry fields) => some fields
  | _ => none

def pointersAt (heap : Heap (MemoryBlock υ)) (a : Nat) : Option (Block Nat) :=
  match heap.block a with
  | some (.pointers cells) => some cells
  | _ => none

/-- `p_dict->p_entries[i]` -/
def readCell (heap : Heap (MemoryBlock υ)) (d : DictionaryRef) (i : Nat) : Option Nat := do
  let cells ← pointersAt heap d.pEntries
  cells.read i

/-- `a[i] = p` -/
def writePointer (heap : Heap (MemoryBlock υ)) (a i p : Nat) : Option (Heap (MemoryBlock υ)) := do
  let cells ← pointersAt heap a
  let cells ← cells.write i p
  heap.write a (.pointers cells)

/-- `p_dict->p_entries[i] = p` -/
def writeCell (heap : Heap (MemoryBlock υ)) (d : DictionaryRef) (i p : Nat) :
    Option (Heap (MemoryBlock υ)) :=
  writePointer heap d.pEntries i p

/-- `if (pf_os_free != NULL) (*pf_os_free)(value, p_obj)` -/
def State.callback (pfOsFree : Bool) (value : υ) (m : State υ) : State υ :=
  if pfOsFree then { m with handed := m.handed ++ [value] } else m

/-- More rounds than any walk along a chain takes. -/
def enough (heap : Heap (MemoryBlock υ)) : Nat := heap.allocated.card + 1

/-- `DictHash(psz_key, p_dict->i_size)` -/
def DictionaryRef.iPos (d : DictionaryRef) (key : CString) : Nat := (dictHash key d.iSize).toNat

/-- The values of `i` in `for (i = 0; i < p_dict->i_size; i++)`. -/
def DictionaryRef.indices (d : DictionaryRef) : List Nat := List.range d.iSize.toNatClampNeg

/-! ## Readers -/

/-- `dictionary_has_key` -/
def dictionaryHasKey (heap : Heap (MemoryBlock υ)) (d : DictionaryRef) (key : CString) :
    Option Int :=
  if d.pEntries = 0 then some 0
  else do
    let pEntry ← readCell heap d (d.iPos key)
    some (if pEntry ≠ 0 then 1 else 0)

/-- The loop of `dictionary_value_for_key`. -/
def valueFrom (heap : Heap (MemoryBlock υ)) (key : CString) : Nat → Nat → Option (Option υ)
  | 0, _ => none
  | fuel + 1, pEntry => do
      let entry ← entryAt heap pEntry
      let pszKey ← textAt heap entry.pszKey
      if pszKey = key then some (some entry.pValue)
      else if entry.pNext ≠ 0 then valueFrom heap key fuel entry.pNext
      else some none

/-- `dictionary_value_for_key` -/
def dictionaryValueForKey (heap : Heap (MemoryBlock υ)) (d : DictionaryRef) (key : CString) :
    Option (Option υ) :=
  if d.pEntries = 0 then some none
  else do
    let pEntry ← readCell heap d (d.iPos key)
    if pEntry = 0 then some none else valueFrom heap key (enough heap) pEntry

/-- The inner loop of `dictionary_keys_count`. -/
def countChain (heap : Heap (MemoryBlock υ)) : Nat → Nat → Int32 → Option Int32
  | 0, _, _ => none
  | fuel + 1, pEntry, count =>
      if pEntry = 0 then some count
      else do
        let entry ← entryAt heap pEntry
        countChain heap fuel entry.pNext (count + 1)

/-- `dictionary_keys_count` -/
def dictionaryKeysCount (heap : Heap (MemoryBlock υ)) (d : DictionaryRef) : Option Int32 :=
  if d.pEntries = 0 then some 0
  else
    d.indices.foldlM (fun count i => do
      let pEntry ← readCell heap d i
      countChain heap (enough heap) pEntry count) 0

/-- The inner loop of `dictionary_all_keys`, from an entry and a count on. -/
def copyKeys (allocator : Heap.Allocator (MemoryBlock υ)) (ppszRet : Nat) :
    Nat → Nat → Heap (MemoryBlock υ) × Int32 → Option (Heap (MemoryBlock υ) × Int32)
  | 0, _, _ => none
  | fuel + 1, pEntry, (heap, count) =>
      if pEntry = 0 then some (heap, count)
      else do
        let entry ← entryAt heap pEntry
        let pszKey ← textAt heap entry.pszKey
        let (heap, copy) := heap.alloc allocator (.text pszKey)
        let heap ← writePointer heap ppszRet count.toNatClampNeg copy
        let entry ← entryAt heap pEntry
        copyKeys allocator ppszRet fuel entry.pNext (heap, count + 1)

/-- `dictionary_all_keys`, with what the array contains that `os_malloc` returns. -/
def dictionaryAllKeys (allocator : Heap.Allocator (MemoryBlock υ)) (garbage : Nat → Nat)
    (heap : Heap (MemoryBlock υ)) (d : DictionaryRef) : Option (Heap (MemoryBlock υ) × Nat) := do
  let count ← dictionaryKeysCount heap d
  let (heap, ppszRet) := heap.alloc allocator (.pointers ⟨garbage, (count + 1).toNatClampNeg⟩)
  let (heap, count) ← d.indices.foldlM (fun (copied : Heap (MemoryBlock υ) × Int32) i => do
    let pEntry ← readCell copied.1 d i
    copyKeys allocator ppszRet (enough copied.1) pEntry copied) (heap, 0)
  let heap ← writePointer heap ppszRet count.toNatClampNeg 0
  some (heap, ppszRet)

/-! ## Writers -/

/-- `dictionary_init` -/
def dictionaryInit (allocator : Heap.Allocator (MemoryBlock υ)) (iSize : Int32)
    (heap : Heap (MemoryBlock υ)) : Heap (MemoryBlock υ) × DictionaryRef :=
  if iSize > 0 then
    let (heap, pEntries) := heap.alloc allocator (.pointers ⟨fun _ => 0, iSize.toNatClampNeg⟩)
    (heap, ⟨iSize, pEntries⟩)
  else (heap, ⟨iSize, 0⟩)

/-- The `while` loop of `dictionary_clear`. -/
def clearChain (pfOsFree : Bool) : Nat → Nat → State υ → Option (State υ)
  | 0, _, _ => none
  | fuel + 1, pCurrent, m =>
      if pCurrent = 0 then some m
      else do
        let current ← entryAt m.heap pCurrent
        let m := m.callback pfOsFree current.pValue
        let heap ← m.heap.free current.pszKey
        let heap ← heap.free pCurrent
        clearChain pfOsFree fuel current.pNext { m with heap := heap }

/-- `dictionary_clear` -/
def dictionaryClear (pfOsFree : Bool) (d : DictionaryRef) (m : State υ) :
    Option (State υ × DictionaryRef) :=
  if d.pEntries = 0 then some (m, ⟨0, 0⟩)
  else do
    let m ← d.indices.foldlM (fun m i => do
      let pCurrent ← readCell m.heap d i
      clearChain pfOsFree (enough m.heap) pCurrent m) m
    let heap ← m.heap.free d.pEntries
    some ({ m with heap := heap }, ⟨0, 0⟩)

/-- `if (!p_dict->p_entries) dictionary_init(p_dict, 1)` -/
def withEntries (allocator : Heap.Allocator (MemoryBlock υ)) (d : DictionaryRef)
    (heap : Heap (MemoryBlock υ)) : Heap (MemoryBlock υ) × DictionaryRef :=
  if d.pEntries = 0 then dictionaryInit allocator 1 heap else (heap, d)

/-- `__dictionary_insert` up to `if (rebuild)`, with the new `p_entry`. -/
def linkEntry (allocator : Heap.Allocator (MemoryBlock υ)) (d : DictionaryRef) (key : CString)
    (value : υ) (heap : Heap (MemoryBlock υ)) :
    Option (Heap (MemoryBlock υ) × DictionaryRef × Nat) := do
  let (heap, d) := withEntries allocator d heap
  let (heap, pEntry) := heap.alloc allocator .fresh
  let (heap, pszKey) := heap.alloc allocator (.text key)
  let pNext ← readCell heap d (d.iPos key)
  let heap ← heap.write pEntry (.entry ⟨pszKey, value, pNext⟩)
  let heap ← writeCell heap d (d.iPos key) pEntry
  some (heap, d, pEntry)

/-- `for (count = 1; p_entry->p_next; count++) p_entry = p_entry->p_next` -/
def countNext (heap : Heap (MemoryBlock υ)) : Nat → Nat → Nat → Option Nat
  | 0, _, _ => none
  | fuel + 1, pEntry, count => do
      let entry ← entryAt heap pEntry
      if entry.pNext ≠ 0 then countNext heap fuel entry.pNext (count + 1) else some count

/-- The `while` loop of the rebuild, which inserts the entries of a chain in `new_dict`. -/
def copyChain (allocator : Heap.Allocator (MemoryBlock υ)) :
    Nat → Nat → Heap (MemoryBlock υ) × DictionaryRef → Option (Heap (MemoryBlock υ) × DictionaryRef)
  | 0, _, _ => none
  | fuel + 1, pEntry, (heap, newDict) =>
      if pEntry = 0 then some (heap, newDict)
      else do
        let entry ← entryAt heap pEntry
        let pszKey ← textAt heap entry.pszKey
        let (heap, newDict, _) ← linkEntry allocator newDict pszKey entry.pValue heap
        let entry ← entryAt heap pEntry
        copyChain allocator fuel entry.pNext (heap, newDict)

/-- The rebuild of `__dictionary_insert`, whose `new_dict` becomes the dictionary. -/
def rebuilt (allocator : Heap.Allocator (MemoryBlock υ)) (d : DictionaryRef) (m : State υ) :
    Option (State υ × DictionaryRef) := do
  let (heap, newDict) ← d.indices.foldlM (fun (new : Heap (MemoryBlock υ) × DictionaryRef) i => do
    let pEntry ← readCell new.1 d i
    copyChain allocator (enough new.1) pEntry new)
    (dictionaryInit allocator (newSize d.iSize) m.heap)
  let (m, _) ← dictionaryClear false d { m with heap := heap }
  some (m, newDict)

/-- `dictionary_insert` -/
def dictionaryInsert (allocator : Heap.Allocator (MemoryBlock υ)) (d : DictionaryRef)
    (key : CString) (value : υ) (m : State υ) : Option (State υ × DictionaryRef) := do
  let (heap, d, pEntry) ← linkEntry allocator d key value m.heap
  let count ← countNext heap (enough heap) pEntry 1
  if count > 3 then rebuilt allocator d { m with heap := heap }
  else some ({ m with heap := heap }, d)

/-- `if (!p_prev) p_entries[i_pos] = next; else p_prev->p_next = next` -/
def unlink (d : DictionaryRef) (iPos pPrev pNext : Nat) (heap : Heap (MemoryBlock υ)) :
    Option (Heap (MemoryBlock υ)) :=
  if pPrev = 0 then writeCell heap d iPos pNext
  else do
    let prev ← entryAt heap pPrev
    heap.write pPrev (.entry { prev with pNext := pNext })

/-- The loop of `dictionary_remove_value_for_key`. -/
def removeFrom (pfOsFree : Bool) (d : DictionaryRef) (key : CString) :
    Nat → Nat → Nat → State υ → Option (State υ)
  | 0, _, _, _ => none
  | fuel + 1, pPrev, pEntry, m => do
      let entry ← entryAt m.heap pEntry
      let pszKey ← textAt m.heap entry.pszKey
      if pszKey = key then do
        let m := m.callback pfOsFree entry.pValue
        let heap ← unlink d (d.iPos key) pPrev entry.pNext m.heap
        let heap ← heap.free entry.pszKey
        let heap ← heap.free pEntry
        some { m with heap := heap }
      else if entry.pNext ≠ 0 then removeFrom pfOsFree d key fuel pEntry entry.pNext m
      else some m

/-- `dictionary_remove_value_for_key` -/
def dictionaryRemoveValueForKey (pfOsFree : Bool) (d : DictionaryRef) (key : CString)
    (m : State υ) : Option (State υ) :=
  if d.pEntries = 0 then some m
  else do
    let pEntry ← readCell m.heap d (d.iPos key)
    if pEntry = 0 then some m else removeFrom pfOsFree d key (enough m.heap) 0 pEntry m

end Memory
end ChainedDictionary
end OstrichServer
