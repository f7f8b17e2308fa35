import OstrichServer.Dictionary.StringKeys
import OstrichServer.Foundations.Buckets
import OstrichServer.Foundations.Stacks

/-!
# The chained dictionary of `arrays.h`

A `dictionary_t` with a chain of entries in each bucket: insertion in front of the chain of a key,
with a rebuild into a larger table when the chain has grown, lookup, removal and counting.
Allocations succeed and values are not `NULL`, so that `none` is `kIMAXDictionaryNotFound`.
-/

namespace OstrichServer
namespace ChainedDictionary

open Dictionary

/-! ## Data -/

/-- `dictionary_entry_t`; the entries that `p_next` leads to follow it in a list. -/
structure DictionaryEntry (υ : Type) where
  pszKey : CString
  pValue : υ

/-- `dictionary_t`; `none` is a null `p_entries`. -/
structure DictionaryT (υ : Type) where
  iSize : Int32
  pEntries : Option (Nat → List (DictionaryEntry υ))

variable {υ : Type}

/-- A round of the loop of `DictHash`; a `char` is signed. -/
def dictHashByte (hash : UInt64) (c : UInt8) : UInt64 :=
  let hash := hash + c.toInt8.toInt64.toUInt64
  let hash := hash + hash <<< 10
  hash ^^^ hash >>> 8

/-- `DictHash` -/
def dictHash (pszString : CString) (hashsize : Int32) : UInt64 :=
  pszString.val.foldl dictHashByte 0 % hashsize.toInt64.toUInt64

/-- `dictionary_init` -/
def dictionaryInit (υ : Type) (iSize : Int32) : DictionaryT υ where
  iSize := iSize
  pEntries := if iSize > 0 then some fun _ => [] else none

/-! ## Readers -/

/-- `DictHash(psz_key, p_dict->i_size)` as an index. -/
def DictionaryT.iPos (d : DictionaryT υ) (key : CString) : Nat := (dictHash key d.iSize).toNat

/-- The chain that `p_entries[i_pos]` begins, if there are buckets. -/
def DictionaryT.chain (d : DictionaryT υ) (key : CString) : List (DictionaryEntry υ) :=
  match d.pEntries with
  | none => []
  | some chains => chains (d.iPos key)

/-- The entries in the order in which `for (i = 0; i < i_size; i++)` goes along the chains. -/
def DictionaryT.entries (d : DictionaryT υ) : List (DictionaryEntry υ) :=
  match d.pEntries with
  | none => []
  | some chains => (List.range d.iSize.toNatClampNeg).flatMap chains

/-- `dictionary_has_key` -/
def dictionaryHasKey (d : DictionaryT υ) (key : CString) : Int :=
  match d.pEntries with
  | none => 0
  | some chains => if (chains (d.iPos key)).isEmpty then 0 else 1

/-- `dictionary_value_for_key` -/
def dictionaryValueForKey (d : DictionaryT υ) (key : CString) : Option υ :=
  match d.pEntries with
  | none => none
  | some chains =>
      ((chains (d.iPos key)).find? fun entry => entry.pszKey = key).map DictionaryEntry.pValue

/-- `dictionary_keys_count`, with an `int` that wraps. -/
def dictionaryKeysCount (d : DictionaryT υ) : Int32 :=
  match d.pEntries with
  | none => 0
  | some chains =>
      (List.range d.iSize.toNatClampNeg).foldl
        (fun count i => (chains i).foldl (fun count _ => count + 1) count) 0

/-! ## Writers -/

/-- `if (!p_dict->p_entries) dictionary_init(p_dict, 1)` -/
def DictionaryT.withEntries (d : DictionaryT υ) : DictionaryT υ :=
  match d.pEntries with
  | none => dictionaryInit υ 1
  | some _ => d

/-- `__dictionary_insert` up to `if (rebuild)`. -/
def linkEntry (d : DictionaryT υ) (key : CString) (value : υ) : DictionaryT υ :=
  let d := d.withEntries
  { d with
    pEntries := d.pEntries.map fun chains =>
      Function.update chains (d.iPos key) (⟨key, value⟩ :: chains (d.iPos key)) }

/-- `((p_dict->i_size + 2) * 3) / 2`; an overflow wraps. -/
def newSize (iSize : Int32) : Int32 := ((iSize + 2) * 3) / 2

/-- `new_dict` after the loops that insert every entry, which `p_dict` becomes. -/
def rebuilt (d : DictionaryT υ) : DictionaryT υ :=
  d.entries.foldl (fun newDict entry => linkEntry newDict entry.pszKey entry.pValue)
    (dictionaryInit υ (newSize d.iSize))

/-- `__dictionary_insert` -/
def dictionaryInsertRebuild (d : DictionaryT υ) (key : CString) (value : υ) (rebuild : Bool) :
    DictionaryT υ :=
  let d := linkEntry d key value
  if rebuild = true ∧ 3 < (d.chain key).length then rebuilt d else d

/-- `dictionary_insert` -/
def dictionaryInsert (d : DictionaryT υ) (key : CString) (value : υ) : DictionaryT υ :=
  dictionaryInsertRebuild d key value true

/-- `dictionary_remove_value_for_key`, which unlinks the first entry with the key. -/
def dictionaryRemoveValueForKey (d : DictionaryT υ) (key : CString) : DictionaryT υ :=
  { d with
    pEntries := d.pEntries.map fun chains =>
      Function.update chains (d.iPos key)
        ((chains (d.iPos key)).eraseP fun entry => entry.pszKey = key) }

/-! ## Calls -/

/-- A call that changes a dictionary. -/
inductive Call (υ : Type)
  | insert (key : CString) (value : υ)
  | remove (key : CString)

/-- A call, with the rebuild step of `__dictionary_insert` on or off. -/
def call (rebuild : Bool) (d : DictionaryT υ) : Call υ → DictionaryT υ
  | .insert key value => dictionaryInsertRebuild d key value rebuild
  | .remove key => dictionaryRemoveValueForKey d key

/-- Calls one after another. -/
def callAll (rebuild : Bool) (d : DictionaryT υ) (calls : List (Call υ)) : DictionaryT υ :=
  calls.foldl (call rebuild) d

end ChainedDictionary
end OstrichServer
