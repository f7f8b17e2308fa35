import OstrichServer.Dictionary.Operations

/-!
# String keys

The hash and the comparison of `dict.c` for keys that are strings, and that on C strings the
comparison gives 0 exactly on equal ones.
-/

namespace OstrichServer
namespace Dictionary

/-- The bytes of a C string, without the NUL at its end. -/
abbrev CString : Type := { data : List UInt8 // 0 ∉ data }

/-- `tolower` in the C locale. -/
def tolower (c : UInt8) : UInt8 := if 65 ≤ c ∧ c ≤ 90 then c + 32 else c

/-- `dict_casestring_key` -/
def dictCasestringKey (buf : List UInt8) : UInt32 :=
  buf.foldl (fun hash c => ((hash <<< 5) + hash) + (tolower c).toUInt32) 5381

/-- `strncmp`; both lists go on for at least the bytes compared, or end in a NUL. -/
def strncmp : List UInt8 → List UInt8 → Nat → Int
  | c :: data, c' :: data', len + 1 =>
      if c ≠ c' then (c.toNat : Int) - c'.toNat
      else if c = 0 then 0
      else strncmp data data' len
  | _, _, _ => 0

/-- `dict_string_key_compare` -/
def dictStringKeyCompare (k1 k2 : List UInt8) : Int :=
  if k1.length ≠ k2.length then -1 else strncmp k1 k2 k1.length

/-- A `dict_type` for string keys, as `config.c` has one. -/
def stringKeys : DictType CString where
  hash key := dictCasestringKey key.val
  keyCmp key1 key2 := dictStringKeyCompare key1.val key2.val

theorem strncmp_eq_zero_iff {data data' : List UInt8} (noNul : 0 ∉ data)
    (same : data.length = data'.length) : strncmp data data' data.length = 0 ↔ data = data' := by
  induction data generalizing data' with
  | nil =>
      rw [List.length_nil] at same
      rw [List.eq_nil_of_length_eq_zero same.symm]
      exact ⟨fun _ => rfl, fun _ => rfl⟩
  | cons c data induction =>
      cases data' with
      | nil => cases same
      | cons c' data' =>
          rw [List.mem_cons, not_or] at noNul
          rw [List.length_cons, strncmp]
          by_cases head : c = c'
          · rw [if_neg (not_not.mpr head), if_neg (Ne.symm noNul.1),
              induction noNul.2 (Nat.succ.inj same), head]
            exact ⟨congrArg (c' :: ·), fun equal => (List.cons.inj equal).2⟩
          · rw [if_pos head]
            constructor
            · intro equal
              exact (head (UInt8.toNat_inj.mp (by omega))).elim
            · intro equal
              exact (head (List.cons.inj equal).1).elim

/-- Two C strings compare as 0 exactly when they are equal. -/
theorem dictStringKeyCompare_eq_zero_iff (key1 key2 : CString) :
    dictStringKeyCompare key1.val key2.val = 0 ↔ key1 = key2 := by
  rw [dictStringKeyCompare]
  by_cases same : key1.val.length = key2.val.length
  · rw [if_neg (not_not.mpr same), strncmp_eq_zero_iff key1.property same, Subtype.ext_iff]
  · rw [if_pos same]
    constructor
    · intro impossible
      cases impossible
    · intro equal
      exact (same (by rw [equal])).elim

end Dictionary
end OstrichServer
