import OstrichServer.Dictionary.Release

/-!
# When the operations of the dict release their lock

The operations with the reader/writer lock of the dict and the spin lock of an entry, as one thread
takes and releases them.
-/

namespace OstrichServer
namespace Dictionary

variable {κ υ : Type} (type : DictType κ)

/-! ## The locks -/

/-- `pthread_rwlock_t`, as one thread holds it. -/
inductive RwLock
  | readers (count : Nat)
  | writer
  deriving DecidableEq

/-- The lock of the dict, and whether the lock of an entry is held. -/
structure Locks where
  rwlock : RwLock
  spin : Bool
  deriving DecidableEq

/-- No lock is held. -/
def Locks.free : Locks := { rwlock := .readers 0, spin := false }

/-- Why a call does not return. -/
inductive Stuck
  /-- It waits for a lock that its own thread holds. -/
  | waits
  | undefined
  deriving DecidableEq

/-- `pthread_rwlock_wrlock` -/
def wrlock (s : Locks) : Except Stuck Locks :=
  if s.rwlock = .readers 0 then .ok { s with rwlock := .writer } else .error .waits

/-- `pthread_rwlock_rdlock` -/
def rdlock (s : Locks) : Except Stuck Locks :=
  match s.rwlock with
  | .readers count => .ok { s with rwlock := .readers (count + 1) }
  | .writer => .error .waits

/-- `pthread_rwlock_unlock` -/
def unlock (s : Locks) : Locks :=
  match s.rwlock with
  | .readers count => { s with rwlock := .readers (count - 1) }
  | .writer => { s with rwlock := .readers 0 }

/-- `_lock(&entry->lock)` -/
def lockEntry (s : Locks) : Except Stuck Locks :=
  if s.spin then .error .waits else .ok { s with spin := true }

/-- `_unlock(&entry->lock)` -/
def unlockEntry (s : Locks) : Locks := { s with spin := false }

/-- What an operation gives, if it is defined. -/
def orUndefined {α : Type} : Option α → Except Stuck α
  | some a => .ok a
  | none => .error .undefined

/-! ## The operations -/

/-- `dict_add` -/
def dictAddLocked (s : Locks) (d : Dict κ υ) (key : κ) (val : υ) :
    Except Stuck (Locks × Status × Dict κ υ) := do
  let s ← wrlock s
  let (status, d) ← orUndefined (dictAdd type d key val)
  return (unlock s, status, d)

/-- `dict_find`, which returns without unlocking when there is no table. -/
def dictFindLocked (s : Locks) (d : Dict κ υ) (key : κ) :
    Except Stuck (Locks × Option (DictEntry κ υ)) := do
  let s ← rdlock s
  if d.ht0.size = 0 then return (s, none)
  let he ← orUndefined (dictFind type d key)
  return (unlock s, he)

/-- `dict_rehash`, which returns 0 without unlocking. -/
def dictRehashLocked (s : Locks) (d : Dict κ υ) (n : Int) :
    Except Stuck (Locks × Int × Dict κ υ) := do
  let s ← wrlock s
  if ¬ d.isRehashing then return (s, 0, d)
  let (out, d) ← orUndefined (dictRehash type d n)
  if out = 0 then return (s, out, d)
  return (unlock s, out, d)

/-- `dict_replace` -/
def dictReplaceLocked (s : Locks) (d : Dict κ υ) (key : κ) (val : υ) :
    Except Stuck (Locks × Int × Dict κ υ) := do
  let (s, status, d) ← dictAddLocked type s d key val
  if status = .osOk then return (s, 1, d)
  let (s, entry) ← dictFindLocked type s d key
  match entry with
  | none => .error .undefined
  | some _ =>
      let s ← lockEntry s
      return (unlockEntry s, 0, d.setVal type key val)

/-- A call of one of the operations that lock, or of `dict_expand`, which does not. -/
inductive LockingCall (κ υ : Type)
  | add (key : κ) (val : υ)
  | find (key : κ)
  | replace (key : κ) (val : υ)
  | rehash (n : Int)
  | expand (size : Nat)

namespace LockingCall

/-- The locks and the dict after a call. -/
def run (s : Locks) (d : Dict κ υ) : LockingCall κ υ → Except Stuck (Locks × Dict κ υ)
  | add key val => (dictAddLocked type s d key val).map fun (s, _, d) => (s, d)
  | find key => (dictFindLocked type s d key).map fun (s, _) => (s, d)
  | replace key val => (dictReplaceLocked type s d key val).map fun (s, _, d) => (s, d)
  | rehash n => (dictRehashLocked type s d n).map fun (s, _, d) => (s, d)
  | expand size => .ok (s, (dictExpand d size).2)

end LockingCall

/-- `dict_add` finds another key in the chains of the key, or takes the index of its bucket for -1.
-/
def Dict.RefusesKey (d : Dict κ υ) (key : κ) : Prop :=
  (∃ entry ∈ d.chains (type.hash key), type.keyCmp key entry.key ≠ 0) ∨
    d.insertIndex (type.hash key) = 2 ^ 32 - 1

/-- The condition for a call: an `int` can hold the index of the bucket for a key that is added; a
key is looked for when there is a table; a key that is refused when it is to be replaced is in its
chains; and a rehash goes on, with no more rounds than there are buckets to be moved. -/
def LockingCall.Releases (d : Dict κ υ) : LockingCall κ υ → Prop
  | add key _ => d.RefusesKey type key ∨ d.insertIndex (type.hash key) ≤ intMax
  | find _ => d.ht0.size ≠ 0
  | replace key _ =>
      d.RefusesKey type key ∧ (∃ entry ∈ d.chains (type.hash key), type.keyCmp key entry.key = 0) ∨
        ¬ d.RefusesKey type key ∧ d.insertIndex (type.hash key) ≤ intMax
  | rehash n => d.rehashidx ≠ -1 ∧ 0 ≤ n ∧ n ≤ d.bucketsInUse
  | expand _ => True

/-- Runs of calls that meet their condition, from `dict_create` with no lock held. -/
def lockingRuns : TransitionSystem (Locks × Dict κ υ) where
  initial state := state = (.free, dictCreate)
  step state next := ∃ call : LockingCall κ υ, call.Releases type state.2 ∧
    call.run type state.1 state.2 = .ok next ∧ next.2.Sized

variable {type} {d d' : Dict κ υ}

/-! ## Adding -/

/-- Insertion gives nothing, refuses or inserts. -/
theorem dictAdd_of_refusesKey (wellFormed : d.WellFormed type) {key : κ} {val : υ}
    (refused : d.RefusesKey type key) : dictAdd type d key val = some (.osErr, d.grown) := by
  cases scan : refuses type key (d.chains (type.hash key)) with
  | true => exact dictAdd_of_refuses wellFormed val scan
  | false =>
      rcases refused with ⟨entry, member, other⟩ | last
      · exact (List.any_eq_false.mp scan entry member (decide_eq_true other)).elim
      · have large : intMax < d.insertIndex (type.hash key) := by
          rw [last]
          decide
        rw [dictAdd_of_intMax_lt wellFormed val scan large, if_pos last]

theorem refuses_eq_false {key : κ} (accepted : ¬ d.RefusesKey type key) :
    refuses type key (d.chains (type.hash key)) = false := by
  rw [refuses, List.any_eq_false]
  intro entry member other
  exact accepted (Or.inl ⟨entry, member, of_decide_eq_true other⟩)

theorem dictAdd_isSome_iff (wellFormed : d.WellFormed type) (key : κ) (val : υ) :
    (∃ result, dictAdd type d key val = some result) ↔
      d.RefusesKey type key ∨ d.insertIndex (type.hash key) ≤ intMax := by
  constructor
  · rintro ⟨⟨status, d'⟩, added⟩
    rcases dictAdd_cases wellFormed added with ⟨-, -, scan | last⟩ | ⟨-, -, small, -⟩
    · obtain ⟨entry, member, other⟩ := List.any_eq_true.mp scan
      exact Or.inl (Or.inl ⟨entry, member, of_decide_eq_true other⟩)
    · exact Or.inl (Or.inr last)
    · exact Or.inr small
  · intro fine
    by_cases refused : d.RefusesKey type key
    · exact ⟨_, dictAdd_of_refusesKey wellFormed refused⟩
    · obtain ⟨d', added, -⟩ := dictAdd_of_accepts wellFormed val (refuses_eq_false refused)
        (fine.resolve_left refused)
      exact ⟨_, added⟩

/-! ## Rehashing -/

/-- The loop of `dict_rehash` comes to the end of its count exactly when there are buckets enough.
-/
theorem dictRehash_counts_out_iff (wellFormed : d.WellFormed type) (near : d.Near)
    (rehashing : d.rehashidx ≠ -1) (n : Int) :
    (∃ out d', dictRehash type d n = some (out, d') ∧ out ≠ 0) ↔ 0 ≤ n ∧ n ≤ d.bucketsInUse := by
  constructor
  · rintro ⟨out, d', result, more⟩
    rcases dictRehash_cases result with ⟨resting, -⟩ | ⟨-, k, d₁, rounds, ending⟩
    · exact (rehashing resting).elim
    · have buckets := rounds.bucketsInUse wellFormed rehashing
      rcases ending with ⟨-, counted, -⟩ | ⟨none, -⟩
      · omega
      · exact (more none).elim
  · rintro ⟨positive, enough⟩
    obtain ⟨out, d', result⟩ := exists_dictRehash wellFormed fun _ => ⟨near, Or.inl positive⟩
    refine ⟨out, d', result, ?_⟩
    rcases dictRehash_cases result with ⟨resting, -⟩ | ⟨-, k, d₁, rounds, ending⟩
    · exact (rehashing resting).elim
    · have buckets := rounds.bucketsInUse wellFormed rehashing
      rcases ending with ⟨one, -⟩ | ⟨-, -, below, unused, -⟩
      · omega
      · have kept := (rounds.keeps (fun _ _ _ _ => trivial) wellFormed rehashing trivial).1
        have none := bucketsInUse_eq_zero kept unused
        have less := below positive
        omega

/-! ## Each call -/

theorem dictAddLocked_free (d : Dict κ υ) (key : κ) (val : υ) :
    dictAddLocked type .free d key val =
      (orUndefined (dictAdd type d key val)).map fun (status, d) => (.free, status, d) := by
  rw [dictAddLocked]
  cases dictAdd type d key val <;> rfl

theorem dictFindLocked_free (wellFormed : d.WellFormed type) (key : κ) :
    dictFindLocked type .free d key =
      if d.ht0.size = 0 then .ok ({ Locks.free with rwlock := .readers 1 }, none)
      else .ok (.free, findIn type key (d.chains (type.hash key))) := by
  rw [dictFindLocked, dictFind_eq wellFormed]
  by_cases none : d.ht0.size = 0
  · rw [if_pos none]
    change (if d.ht0.size = 0 then _ else _) = _
    rw [if_pos none]
    rfl
  · rw [if_neg none]
    change (if d.ht0.size = 0 then _ else _) = _
    rw [if_neg none]
    rfl

theorem dictReplaceLocked_free (wellFormed : d.WellFormed type) (key : κ) (val : υ) :
    dictReplaceLocked type .free d key val =
      match dictAdd type d key val with
      | none => .error .undefined
      | some (.osOk, d') => .ok (.free, 1, d')
      | some (.osErr, d') =>
          match findIn type key (d'.chains (type.hash key)) with
          | none => .error .undefined
          | some _ => .ok (.free, 0, d'.setVal type key val) := by
  rw [dictReplaceLocked, dictAddLocked_free]
  cases added : dictAdd type d key val with
  | none => rfl
  | some result =>
      obtain ⟨status, d'⟩ := result
      cases status with
      | osOk => rfl
      | osErr =>
          have refused : d' = d.grown := by
            rcases dictAdd_cases wellFormed added with ⟨-, same, -⟩ | ⟨impossible, -⟩
            · exact same
            · cases impossible
          obtain ⟨-, buckets, grown⟩ := dictExpandIfNeeded_spec wellFormed
          change 0 < d.grown.ht0.size at buckets
          change Grown type d d.grown at grown
          rw [← refused] at buckets grown
          change (dictFindLocked type .free d' key >>= _) = _
          rw [dictFindLocked_free grown.wellFormed, if_neg buckets.ne']
          cases found : findIn type key (d'.chains (type.hash key)) <;> simp only [found] <;> rfl

theorem dictRehashLocked_free (d : Dict κ υ) (n : Int) :
    dictRehashLocked type .free d n =
      if d.isRehashing then
        match dictRehash type d n with
        | none => .error .undefined
        | some (out, d') =>
            .ok (if out = 0 then { Locks.free with rwlock := .writer } else .free, out, d')
      else .ok ({ Locks.free with rwlock := .writer }, 0, d) := by
  rw [dictRehashLocked]
  cases rehash : d.isRehashing with
  | false => rfl
  | true =>
      rw [if_pos rfl]
      cases dictRehash type d n with
      | none => rfl
      | some result =>
          obtain ⟨out, d'⟩ := result
          by_cases none : out = 0
          · subst none
            rfl
          · change (if out = 0 then _ else _) = _
            rw [if_neg none]
            simp only [if_neg none]
            rfl

/-- An error is no return. -/
theorem not_returns_error (error : Stuck) :
    ¬ ∃ d' : Dict κ υ,
      (Except.error error : Except Stuck (Locks × Dict κ υ)) = .ok (.free, d') := by
  rintro ⟨d', impossible⟩
  cases impossible

theorem LockingCall.replace_releases_iff (wellFormed : d.WellFormed type) (key : κ) (val : υ) :
    (∃ d', (LockingCall.replace key val).run type .free d = .ok (.free, d')) ↔
      (LockingCall.replace key val).Releases type d := by
  rw [Releases, run, dictReplaceLocked_free wellFormed]
  by_cases refused : d.RefusesKey type key
  · rw [dictAdd_of_refusesKey wellFormed refused]
    simp only [(grown_grown wellFormed).chains]
    cases found : findIn type key (d.chains (type.hash key)) with
    | none =>
        apply iff_of_false (not_returns_error _)
        rintro (⟨-, entry, member, same⟩ | ⟨accepted, -⟩)
        · exact List.find?_eq_none.mp found entry member (decide_eq_true same)
        · exact accepted refused
    | some entry =>
        have same : type.keyCmp key entry.key = 0 := by simpa using List.find?_some found
        exact iff_of_true ⟨_, rfl⟩ (Or.inl ⟨refused, entry, List.mem_of_find?_eq_some found, same⟩)
  · by_cases small : d.insertIndex (type.hash key) ≤ intMax
    · obtain ⟨d', added, -⟩ :=
        dictAdd_of_accepts wellFormed val (refuses_eq_false refused) small
      rw [added]
      exact iff_of_true ⟨d', rfl⟩ (Or.inr ⟨refused, small⟩)
    · cases added : dictAdd type d key val with
      | some result =>
          have fine := (dictAdd_isSome_iff wellFormed key val).mp ⟨result, added⟩
          exact (fine.elim refused small).elim
      | none =>
          apply iff_of_false (not_returns_error _)
          rintro (⟨refused', -⟩ | ⟨-, small'⟩)
          · exact refused refused'
          · exact small small'

theorem LockingCall.rehash_releases_iff (wellFormed : d.WellFormed type) (sized : d.Sized)
    (n : Int) :
    (∃ d', (LockingCall.rehash n : LockingCall κ υ).run type .free d = .ok (.free, d')) ↔
      (LockingCall.rehash n : LockingCall κ υ).Releases type d := by
  rw [Releases, run, dictRehashLocked_free]
  cases rehash : d.isRehashing with
  | false =>
      rw [if_neg Bool.false_ne_true]
      refine iff_of_false ?_ fun bound => bound.1 (Dict.isRehashing_eq_false_iff.mp rehash)
      rintro ⟨d', impossible⟩
      cases impossible
  | true =>
      have rehashing := Dict.isRehashing_iff.mp rehash
      rw [if_pos rfl, ← dictRehash_counts_out_iff wellFormed sized.near rehashing n]
      cases result : dictRehash type d n with
      | none =>
          apply iff_of_false (not_returns_error _)
          rintro ⟨-, out, d', impossible, -⟩
          cases impossible
      | some returned =>
          obtain ⟨out, d₁⟩ := returned
          by_cases none : out = 0
          · simp only [if_pos none]
            constructor
            · rintro ⟨d', impossible⟩
              cases impossible
            · rintro ⟨-, out', d', same, more⟩
              cases same
              exact (more none).elim
          · simp only [if_neg none]
            exact iff_of_true ⟨d₁, rfl⟩ ⟨rehashing, out, d₁, rfl, none⟩

/-- A call with no lock held returns with no lock held exactly under its condition. -/
theorem LockingCall.releases_iff (wellFormed : d.WellFormed type) (sized : d.Sized)
    (call : LockingCall κ υ) :
    (∃ d', call.run type .free d = .ok (.free, d')) ↔ call.Releases type d := by
  cases call with
  | add key val =>
      rw [Releases, ← dictAdd_isSome_iff wellFormed key val, run, dictAddLocked_free]
      cases dictAdd type d key val with
      | none =>
          apply iff_of_false (not_returns_error _)
          rintro ⟨result, impossible⟩
          cases impossible
      | some result => exact iff_of_true ⟨result.2, rfl⟩ ⟨result, rfl⟩
  | find key =>
      rw [Releases, run, dictFindLocked_free wellFormed]
      by_cases none : d.ht0.size = 0
      · rw [if_pos none]
        refine iff_of_false ?_ fun some => some none
        rintro ⟨d', impossible⟩
        cases impossible
      · rw [if_neg none]
        exact iff_of_true ⟨d, rfl⟩ none
  | replace key val => exact LockingCall.replace_releases_iff wellFormed key val
  | rehash n => exact LockingCall.rehash_releases_iff wellFormed sized n
  | expand size => exact iff_of_true ⟨_, rfl⟩ trivial

/-! ## Runs -/

/-- The call as it is without locks. -/
def LockingCall.operation : LockingCall κ υ → Operation κ υ
  | add key val => .add key val
  | find key => .find key
  | replace key val => .replace key val
  | rehash n => .rehash n
  | expand size => .expand size

/-- With locks a call does to the dict what it does without. -/
theorem LockingCall.apply_of_run (wellFormed : d.WellFormed type) {call : LockingCall κ υ}
    {s : Locks} (result : call.run type .free d = .ok (s, d')) :
    call.operation.apply type d = some d' := by
  cases call with
  | add key val =>
      rw [run, dictAddLocked_free] at result
      rw [operation, Operation.apply]
      cases added : dictAdd type d key val with
      | none =>
          rw [added] at result
          cases result
      | some out =>
          rw [added] at result
          cases result
          rfl
  | find key =>
      rw [run, dictFindLocked_free wellFormed] at result
      rw [operation, Operation.apply, dictFind_eq wellFormed]
      split at result <;> cases result <;> rfl
  | replace key val =>
      rw [run, dictReplaceLocked_free wellFormed] at result
      rw [operation, Operation.apply, dictReplace]
      cases added : dictAdd type d key val with
      | none =>
          rw [added] at result
          cases result
      | some out =>
          obtain ⟨status, final⟩ := out
          have kept := dictAdd_wellFormed wellFormed added
          rw [added] at result
          cases status with
          | osOk =>
              cases result
              rfl
          | osErr =>
              simp only [Option.bind_eq_bind, Option.bind_some, dictFind_eq kept]
              cases found : findIn type key (final.chains (type.hash key)) with
              | none =>
                  simp only [found] at result
                  cases result
              | some entry =>
                  simp only [found] at result
                  cases result
                  rfl
  | rehash n =>
      rw [run, dictRehashLocked_free] at result
      rw [operation, Operation.apply]
      cases rehash : d.isRehashing with
      | false =>
          rw [rehash, if_neg Bool.false_ne_true] at result
          cases result
          rw [dictRehash, rehash, if_neg Bool.false_ne_true]
          rfl
      | true =>
          rw [rehash, if_pos rfl] at result
          cases rehashed : dictRehash type d n with
          | none =>
              rw [rehashed] at result
              cases result
          | some out =>
              rw [rehashed] at result
              cases result
              rfl
  | expand size =>
      cases result
      rfl

theorem lockingRuns_invariant : (lockingRuns type).IsInvariant fun state : Locks × Dict κ υ =>
    state.1 = .free ∧ state.2.WellFormed type ∧ state.2.Sized where
  initial := by
    rintro _ rfl
    exact ⟨rfl, Dict.wellFormed_create, Nat.zero_le _, Nat.zero_le _⟩
  step := by
    rintro ⟨s, d⟩ ⟨s', d'⟩ ⟨free, wellFormed, sized⟩ ⟨call, releases, result, sized'⟩
    simp only at free releases result
    rw [free] at result
    obtain ⟨final, result'⟩ := (call.releases_iff wellFormed sized).mpr releases
    have kept := call.operation.apply_wellFormed wellFormed
      (LockingCall.apply_of_run wellFormed result)
    rw [result'] at result
    cases result
    exact ⟨rfl, kept, sized'⟩

/-- In every state that a dict can be brought to, a call with no lock held returns with no lock held
exactly under its condition; and in runs of calls that meet it no lock is ever held between calls.
-/
theorem dict_releases_locks_iff :
    (∀ d : Dict κ υ, (usage type fun _ d' => d'.Sized).Reachable d → ∀ call : LockingCall κ υ,
        (∃ d', call.run type .free d = .ok (.free, d')) ↔ call.Releases type d) ∧
      ∀ (s : Locks) (d : Dict κ υ), (lockingRuns type).Reachable (s, d) → s = .free ∧
        ∀ call : LockingCall κ υ, call.Releases type d →
          ∃ d', call.run type s d = .ok (.free, d') := by
  constructor
  · intro d reachable call
    exact call.releases_iff (wellFormed_of_reachable reachable) (sized_of_reachable id reachable)
  · intro s d reachable
    obtain ⟨free, wellFormed, sized⟩ := lockingRuns_invariant.of_reachable reachable
    simp only at free wellFormed sized
    subst free
    exact ⟨rfl, fun call releases => (call.releases_iff wellFormed sized).mpr releases⟩

/-- The first insertion into a dict. -/
theorem dict_releases_locks_iff_add :
    ∃ d', (LockingCall.add letterK 1).run stringKeys .free (dictCreate : Dict CString Nat) =
      .ok (.free, d') :=
  (dict_releases_locks_iff.1 dictCreate (TransitionSystem.reachable_of_initial rfl)
    (.add letterK 1)).mpr (Or.inr (by decide))

/-- Looking a key up in a dict without a table leaves the lock held, and the next insertion waits.
-/
theorem dict_find_keeps_lock :
    (usage stringKeys fun _ d' => d'.Sized).Reachable (dictCreate : Dict CString Nat) ∧
      (LockingCall.find letterK).run stringKeys .free (dictCreate : Dict CString Nat) =
        .ok ({ rwlock := .readers 1, spin := false }, dictCreate) ∧
      (LockingCall.add letterK 1).run stringKeys
        { rwlock := .readers 1, spin := false } dictCreate =
        .error .waits :=
  ⟨TransitionSystem.reachable_of_initial rfl, rfl, rfl⟩

end Dictionary
end OstrichServer
