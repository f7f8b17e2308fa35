import OstrichServer.AtomicList.Operations

/-!
# Packing loses nothing

A pointer and a version go into a head and come back, packed words are equal only when both are, and
every swap of the head writes the version that its operation is to leave, whatever happened to the
memory between the accesses of the call.
-/

namespace OstrichServer
namespace AtomicList

/-- Where a call may be after some of its accesses, each to any memory. -/
inductive Calling {κ : Type} (access : Memory → κ → Memory × Progress κ) (start : κ) : κ → Prop
  | start : Calling access start start
  | next {m : Memory} {pc pc' : κ} (calling : Calling access start pc)
      (goes : (access m pc).2 = .running pc') : Calling access start pc'

/-! ## Round trips -/

theorem setWidth_eq_iff (v w : Word) :
    v.setWidth 16 = w.setWidth 16 ↔ v.toNat % 2 ^ 16 = w.toNat % 2 ^ 16 := by
  rw [← BitVec.toNat_inj, BitVec.toNat_setWidth, BitVec.toNat_setWidth]

theorem alVersion_setPointerVersion (p v : Word) :
    (alVersion (setPointerVersion p v)).toNat % 2 ^ 16 = v.toNat % 2 ^ 16 :=
  (setWidth_eq_iff _ _).mp (version_setPointerVersion p v)

theorem setPointerVersion_eq_iff {p q : Word} (canonical : Canonical p) (canonical' : Canonical q)
    (v w : Word) :
    setPointerVersion p v = setPointerVersion q w ↔
      p = q ∧ v.toNat % 2 ^ 16 = w.toNat % 2 ^ 16 := by
  rw [← setWidth_eq_iff]
  constructor
  · intro same
    have pointer := congrArg alPointer same
    have versions := congrArg version same
    rw [alPointer_setPointerVersion canonical, alPointer_setPointerVersion canonical'] at pointer
    rw [version_setPointerVersion, version_setPointerVersion] at versions
    exact ⟨pointer, versions⟩
  · rintro ⟨rfl, versions⟩
    apply word_ext
    · rw [alPointer_setPointerVersion canonical, alPointer_setPointerVersion canonical]
    · rw [version_setPointerVersion, version_setPointerVersion, versions]

/-! ## Swaps -/

/-- What a call of `atomic_list_pop` is about to write has the version after the one it read. -/
theorem version_next_of_calling {pc : PopPc} (calling : Calling atomicListPop .load pc)
    {temp next : Word} (swaps : pc = .swap temp next) : version next = version temp + 1 := by
  induction calling with
  | start => cases swaps
  | next calling goes induction =>
      rename_i m pc pc'
      subst swaps
      cases pc with
      | load =>
          rw [atomicListPop] at goes
          split at goes <;> cases goes
      | follow temp' =>
          cases goes
          exact version_removed _ _
      | swap temp' next' =>
          rw [atomicListPop] at goes
          split at goes <;> cases goes
      | clear temp' => cases goes

/-- A head keeps its pointer and sixteen bits of its version; pushes keep the version of the head
they replace, and successful removals leave the next one. -/
theorem packing_lossless :
    (∀ p v, Canonical p → alPointer (setPointerVersion p v) = p ∧
      (alVersion (setPointerVersion p v)).toNat % 2 ^ 16 = v.toNat % 2 ^ 16) ∧
    (∀ p q v w, Canonical p → Canonical q →
      (setPointerVersion p v = setPointerVersion q w ↔
        p = q ∧ v.toNat % 2 ^ 16 = w.toNat % 2 ^ 16)) ∧
    (∀ data m head, m.head = head →
      version (atomicListPush data m (.swap head)).1.head = version m.head) ∧
    (∀ m temp next, Calling atomicListPop .load (.swap temp next) → m.head = temp →
      version (atomicListPop m (.swap temp next)).1.head = version m.head + 1) ∧
    (∀ m temp, m.head = temp →
      version (atomicListPopall m (.swap temp)).1.head = version m.head + 1) := by
  refine ⟨fun p v canonical => ?_, fun p q v w canonical canonical' => ?_,
    fun data m head held => ?_, fun m temp next calling held => ?_, fun m temp held => ?_⟩
  · exact ⟨alPointer_setPointerVersion canonical v, alVersion_setPointerVersion p v⟩
  · exact setPointerVersion_eq_iff canonical canonical' v w
  · rw [atomicListPush, if_pos held, held]
    exact version_pushed data head
  · rw [atomicListPop, if_pos held, held]
    exact version_next_of_calling calling rfl
  · rw [atomicListPopall, if_pos held, held]
    exact version_removed 0 temp

/-- A high address with a version whose top bits are set. -/
theorem packing_lossless_high :
    alPointer (setPointerVersion 0xFFFF800000001000#64 0xFFFFFFFFFFFFFFFF#64) =
      0xFFFF800000001000#64 ∧
    (alVersion (setPointerVersion 0xFFFF800000001000#64 0xFFFFFFFFFFFFFFFF#64)).toNat % 2 ^ 16 =
      (0xFFFFFFFFFFFFFFFF#64).toNat % 2 ^ 16 :=
  packing_lossless.1 _ _ (by unfold Canonical; decide)

end AtomicList
end OstrichServer
