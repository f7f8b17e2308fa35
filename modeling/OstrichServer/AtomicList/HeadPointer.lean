import Mathlib.Tactic

/-!
# The packed head of an atomic list

`head_p` of `atomiclist.h` on x86-64: a 48-bit pointer and a 16-bit version in one 64-bit word,
with the macros which take it apart.  The version is read back sign-extended, and only its low
sixteen bits are ever stored.
-/

namespace OstrichServer
namespace AtomicList

/-- A 64-bit machine word: a pointer, a packed head or an `intptr_t`. -/
abbrev Word := BitVec 64

/-- `ALPOINTER` -/
def alPointer (x : Word) : Word :=
  (x <<< 16).sshiftRight 16 ||| (((~~~ ((x <<< 16).sshiftRight 63 - 1)).sshiftRight 48) <<< 48)

/-- `ALVERSION` -/
def alVersion (x : Word) : Word := x.sshiftRight 48

/-- `SET_ATOMICLIST_POINTER_VERSION` -/
def setPointerVersion (p v : Word) : Word :=
  (p &&& 0x0000FFFFFFFFFFFF#64) ||| ((v &&& 0xFFFF#64) <<< 48)

/-- Bits 48 to 63 of a pointer repeat its bit 47. -/
def Canonical (p : Word) : Prop := ∀ i, 48 ≤ i → i < 64 → p.getLsbD i = p.getLsbD 47

/-- The sixteen bits a head keeps of its version. -/
def version (x : Word) : BitVec 16 := (alVersion x).setWidth 16

/-! ## Bits -/

private theorem getLsbD_pointerMask :
    ∀ i : Fin 64, (0x0000FFFFFFFFFFFF#64).getLsbD i = decide (i.val < 48) := by
  decide

private theorem getLsbD_versionMask :
    ∀ i : Fin 64, (0xFFFF#64).getLsbD i = decide (i.val < 16) := by
  decide

theorem getLsbD_setPointerVersion (p v : Word) {i : Nat} (inside : i < 64) :
    (setPointerVersion p v).getLsbD i = if i < 48 then p.getLsbD i else v.getLsbD (i - 48) := by
  have pointer := getLsbD_pointerMask ⟨i, inside⟩
  have version := getLsbD_versionMask ⟨i - 48, by omega⟩
  simp only at pointer version
  simp only [setPointerVersion, BitVec.getLsbD_or, BitVec.getLsbD_and, BitVec.getLsbD_shiftLeft,
    pointer, version]
  by_cases low : i < 48
  · simp [low]
  · have small : i - 48 < 16 := by omega
    simp [low, inside, small]

/-- An arithmetic shift by 63 repeats the sign bit. -/
private theorem sshiftRight_63 (x : Word) :
    x.sshiftRight 63 = BitVec.allOnes 64 ∨ x.sshiftRight 63 = 0 := by
  have sign : ∀ i < 64, (x.sshiftRight 63).getLsbD i = x.msb := by
    intro i inside
    rw [BitVec.getLsbD_sshiftRight]
    rcases Nat.eq_zero_or_pos i with rfl | positive
    · simp [BitVec.msb_eq_getLsbD_last]
    · simp [inside, show ¬ 63 + i < 64 by omega]
  cases msb : x.msb with
  | true =>
      refine Or.inl (BitVec.eq_of_getLsbD_eq fun i inside => ?_)
      rw [sign i inside, msb, BitVec.getLsbD_allOnes, decide_eq_true inside]
  | false =>
      refine Or.inr (BitVec.eq_of_getLsbD_eq fun i inside => ?_)
      rw [sign i inside, msb]
      simp

/-- `ALPOINTER` extends bit 47 as the sign: its second operand is always zero. -/
theorem getLsbD_alPointer (x : Word) {i : Nat} (inside : i < 64) :
    (alPointer x).getLsbD i = if i < 48 then x.getLsbD i else x.getLsbD 47 := by
  have second : ((~~~ ((x <<< 16).sshiftRight 63 - 1)).sshiftRight 48) <<< 48 = 0#64 := by
    rcases sshiftRight_63 (x <<< 16) with sign | sign <;> rw [sign] <;> decide
  rw [alPointer, second, BitVec.or_zero, BitVec.getLsbD_sshiftRight, BitVec.msb_eq_getLsbD_last,
    BitVec.getLsbD_shiftLeft, BitVec.getLsbD_shiftLeft]
  by_cases low : i < 48
  · simp [inside, low, show 16 + i < 64 by omega]
  · simp [inside, low, show ¬ 16 + i < 64 by omega]

theorem getLsbD_alVersion (x : Word) {i : Nat} (inside : i < 16) :
    (alVersion x).getLsbD i = x.getLsbD (48 + i) := by
  rw [alVersion, BitVec.getLsbD_sshiftRight]
  simp [show i < 64 by omega, show 48 + i < 64 by omega]

/-! ## Taking a packed head apart -/

@[simp]
theorem alPointer_setPointerVersion {p : Word} (canonical : Canonical p) (v : Word) :
    alPointer (setPointerVersion p v) = p := by
  apply BitVec.eq_of_getLsbD_eq
  intro i inside
  rw [getLsbD_alPointer _ inside]
  by_cases low : i < 48
  · rw [if_pos low, getLsbD_setPointerVersion _ _ inside, if_pos low]
  · rw [if_neg low, getLsbD_setPointerVersion _ _ (by omega), if_pos (by omega),
      canonical i (by omega) inside]

/-- `ALVERSION` reads the version back modulo 2^16. -/
theorem version_setPointerVersion (p v : Word) :
    version (setPointerVersion p v) = v.setWidth 16 := by
  apply BitVec.eq_of_getLsbD_eq
  intro i inside
  rw [version, BitVec.getLsbD_setWidth, BitVec.getLsbD_setWidth, getLsbD_alVersion _ inside,
    getLsbD_setPointerVersion _ _ (by omega), if_neg (by omega), Nat.add_sub_cancel_left]

/-- The head `atomic_list_push` writes keeps the version. -/
@[simp]
theorem version_pushed (p head : Word) :
    version (setPointerVersion p (alVersion head)) = version head :=
  version_setPointerVersion p _

/-- The head a removal writes has the next version modulo 2^16. -/
@[simp]
theorem version_removed (p head : Word) :
    version (setPointerVersion p (alVersion head + 1)) = version head + 1 := by
  rw [version_setPointerVersion, BitVec.setWidth_add _ _ (by decide)]
  rfl

/-- Two packed words are equal when their pointers and their versions are. -/
theorem word_ext {x y : Word} (pointer : alPointer x = alPointer y)
    (same : version x = version y) : x = y := by
  apply BitVec.eq_of_getLsbD_eq
  intro i inside
  by_cases low : i < 48
  · have bit := congrArg (fun w => BitVec.getLsbD w i) pointer
    simpa only [getLsbD_alPointer _ inside, if_pos low] using bit
  · have bit := congrArg (fun w => BitVec.getLsbD w (i - 48)) same
    have back : 48 + (i - 48) = i := by omega
    simpa only [version, BitVec.getLsbD_setWidth, getLsbD_alVersion _ (show i - 48 < 16 by omega),
      decide_eq_true (show i - 48 < 16 by omega), Bool.true_and, back] using bit

/-- The addresses of the lower half. -/
theorem canonical_of_lt {p : Word} (small : p.toNat < 2 ^ 47) : Canonical p := by
  have clear : ∀ i, 47 ≤ i → p.getLsbD i = false := by
    intro i high
    rw [← BitVec.testBit_toNat]
    exact Nat.testBit_lt_two_pow (small.trans_le (Nat.pow_le_pow_right (by decide) high))
  intro i high _
  rw [clear i (by omega), clear 47 le_rfl]

theorem canonical_zero : Canonical 0 := fun _ _ _ => by simp

@[simp]
theorem alPointer_null (v : Word) : alPointer (setPointerVersion 0#64 v) = 0#64 :=
  alPointer_setPointerVersion canonical_zero v

/-- Whatever `ALPOINTER` returns is canonical. -/
theorem canonical_alPointer (x : Word) : Canonical (alPointer x) := by
  intro i high inside
  rw [getLsbD_alPointer x inside, getLsbD_alPointer x (by decide), if_neg (by omega),
    if_pos (by decide)]

end AtomicList
end OstrichServer
