import OstrichServer.HashTable.Table

/-!
# When lookup finds what insertion stored

Insertion walks from the start slot of a string modulo the size of the table, lookup modulo
`MAXHASHTABLELEN`.  In a table of that size they walk the same slots.  In a smaller one lookup
misses the slots before the start and leaves the table instead, in a larger one it misses the slots
past `MAXHASHTABLELEN`.
-/

namespace OstrichServer
namespace HashTable

open Loop

variable {δ : Type} {htable htable' : Table δ} {string : List UInt8}

/-- The slot is in the table and in use. -/
def Table.Occupied (htable : Table δ) (pos : Nat) : Prop :=
  ∃ item, htable.slot pos = some item ∧ item.exist = true

/-- The slot is in use with the check hashes of the string. -/
def Table.Carries (htable : Table δ) (pos : Nat) (string : List UInt8) : Prop :=
  ∃ item, htable.slot pos = some item ∧ item.exist = true ∧
    (item.nhashA, item.nhashB) = checkHashes string

theorem Table.Carries.occupied {pos : Nat} (carries : htable.Carries pos string) :
    htable.Occupied pos := by
  obtain ⟨item, here, exist, -⟩ := carries
  exact ⟨item, here, exist⟩

theorem Table.Occupied.lt {pos : Nat} (occupied : htable.Occupied pos) : pos < htable.size := by
  obtain ⟨item, here, -⟩ := occupied
  by_contra outside
  rw [Table.slot, dif_neg outside] at here
  cases here

theorem slot_of_lt {pos : Nat} (inside : pos < htable.size) :
    htable.slot pos = some (htable.buckets ⟨pos, inside⟩) :=
  dif_pos inside

theorem iterate_next_mod (m start j : Nat) :
    (fun pos => (pos + 1) % m)^[j + 1] start = (start + 1 + j) % m := by
  induction j with
  | zero => rfl
  | succ j induction =>
      rw [Function.iterate_succ_apply', induction, Nat.mod_add_mod]
      rfl

theorem iterate_next_mod_of_lt {m start : Nat} (inside : start < m) (j : Nat) :
    (fun pos => (pos + 1) % m)^[j] start = (start + j) % m := by
  cases j with
  | zero => exact (Nat.mod_eq_of_lt inside).symm
  | succ j =>
      rw [iterate_next_mod]
      congr 1
      omega

/-! ## Insertion -/

/-- A round of insertion that goes on saw a slot in use and did not come back to the start. -/
theorem addRound_next {start pos pos' : Nat} (step : addRound htable start pos = .next pos') :
    pos' = (pos + 1) % htable.size ∧ htable.Occupied pos ∧ pos' ≠ start := by
  unfold addRound at step
  split at step
  · rename_i inside
    split at step
    · rename_i exist
      simp only at step
      split at step
      · cases step
      · rename_i onward
        cases step
        exact ⟨rfl, ⟨_, slot_of_lt inside, exist⟩, onward⟩
    · cases step
  · cases step

/-- A round of insertion that stops at a slot stops where it is, at a free one. -/
theorem addRound_stop {start pos : Nat} {free : Fin htable.size}
    (step : addRound htable start pos = .stop (some free)) :
    free.val = pos ∧ ¬ htable.Occupied pos := by
  unfold addRound at step
  split at step
  · rename_i inside
    split at step
    · simp only at step
      split at step <;> cases step
    · rename_i unused
      cases step
      refine ⟨rfl, ?_⟩
      rintro ⟨item, here, exist⟩
      rw [slot_of_lt inside] at here
      cases here
      exact unused exist
  · cases step

/-- The table with a string in one of its slots. -/
def Table.store (htable : Table δ) (pos : Fin htable.size) (string : List UInt8) (data : δ) :
    Table δ :=
  { htable with
    buckets := Function.update htable.buckets pos
      { nhashA := (checkHashes string).1
        nhashB := (checkHashes string).2
        exist := true
        data := some data } }

/-- Insertion takes the free slot to which its walk leads over slots in use. -/
theorem hashtableAdd_spec {data : δ} (positive : 0 < htable.size)
    (added : hashtableAdd string data htable = some htable') :
    ∃ k < htable.size, ∃ pos : Fin htable.size, htable' = htable.store pos string data ∧
      pos.val = (hashStart string htable + k) % htable.size ∧ ¬ htable.Occupied pos ∧
      ∀ j < k, htable.Occupied ((hashStart string htable + j) % htable.size) := by
  have inside : hashStart string htable < htable.size := Nat.mod_lt _ positive
  unfold hashtableAdd at added
  simp only at added
  generalize hashStart string htable = start at added inside
  split at added
  · rename_i pos result
    cases added
    obtain ⟨k, -, going, stops⟩ := exists_iterate_of_run (fun p => (p + 1) % htable.size)
      (fun step => (addRound_next step).1) result
    simp only [iterate_next_mod_of_lt inside] at going stops
    obtain ⟨place, free⟩ := addRound_stop stops
    refine ⟨k, ?_, pos, rfl, place, place ▸ free,
      fun j before => (addRound_next (going j before)).2.1⟩
    -- after `size` rounds the walk is back at its start, where it stops
    by_contra round
    have back := (addRound_next (going (htable.size - 1) (by omega))).2.2
    rw [Nat.sub_add_cancel positive, Nat.add_mod_right, Nat.mod_eq_of_lt inside] at back
    exact back rfl
  · cases added

theorem slot_store {pos : Fin htable.size} {data : δ} (q : Nat) :
    (htable.store pos string data).slot q =
      if q = pos then
        some { nhashA := (checkHashes string).1
               nhashB := (checkHashes string).2
               exist := true
               data := some data }
      else htable.slot q := by
  by_cases inside : q < htable.size
  · have stored : q < (htable.store pos string data).size := inside
    rw [slot_of_lt stored]
    by_cases same : q = pos
    · subst same
      simp [Table.store]
    · have other : (⟨q, inside⟩ : Fin htable.size) ≠ pos :=
        fun equal => same (congrArg Fin.val equal)
      simp [Table.store, Function.update_of_ne other, same, slot_of_lt inside]
  · have other : q ≠ pos := fun equal => inside (equal ▸ pos.isLt)
    have outside : (htable.store pos string data).slot q = none := dif_neg inside
    rw [if_neg other, outside, Table.slot, dif_neg inside]

/-- The slots in use hold the strings added, each where its walk leads over slots in use. -/
structure Stored (htable : Table δ) (added : List (List UInt8 × δ)) : Prop where
  source : ∀ {pos item}, htable.slot pos = some item → item.exist = true →
    ∃ a ∈ added, item.data = some a.2 ∧ (item.nhashA, item.nhashB) = checkHashes a.1
  probed : ∀ {a}, a ∈ added → ∃ k < htable.size,
    htable.Carries ((hashStart a.1 htable + k) % htable.size) a.1 ∧
      ∀ j < k, htable.Occupied ((hashStart a.1 htable + j) % htable.size)

theorem stored_init (n : Nat) : Stored (hashtableInit n : Table δ) [] where
  source := by
    intro pos item here exist
    unfold Table.slot at here
    split at here
    · cases here
      cases exist
    · cases here
  probed member := (List.not_mem_nil member).elim

theorem Stored.add {added : List (List UInt8 × δ)} (stored : Stored htable added) {data : δ}
    (positive : 0 < htable.size) (result : hashtableAdd string data htable = some htable') :
    htable'.size = htable.size ∧ Stored htable' ((string, data) :: added) := by
  obtain ⟨k, below, pos, rfl, place, free, walked⟩ := hashtableAdd_spec positive result
  have kept : ∀ {q}, htable.Occupied q → (htable.store pos string data).slot q = htable.slot q := by
    intro q occupied
    rw [slot_store, if_neg]
    rintro rfl
    exact free occupied
  have occupied : ∀ {q}, htable.Occupied q → (htable.store pos string data).Occupied q := by
    intro q occupied
    have same := kept occupied
    obtain ⟨item, here, exist⟩ := occupied
    exact ⟨item, same.trans here, exist⟩
  have carries : ∀ {q string'}, htable.Carries q string' →
      (htable.store pos string data).Carries q string' := by
    intro q string' carries
    have same := kept carries.occupied
    obtain ⟨item, here, exist, hashes⟩ := carries
    exact ⟨item, same.trans here, exist, hashes⟩
  refine ⟨rfl, ⟨fun {q item} here exist => ?_, fun {a} member => ?_⟩⟩
  · rw [slot_store] at here
    split at here
    · cases here
      exact ⟨_, List.mem_cons_self, rfl, rfl⟩
    · obtain ⟨a, member, data, hashes⟩ := stored.source here exist
      exact ⟨a, List.mem_cons_of_mem _ member, data, hashes⟩
  · rcases List.mem_cons.mp member with rfl | old
    · exact ⟨k, below, ⟨_, (slot_store _).trans (if_pos place.symm), rfl, rfl⟩,
        fun j before => occupied (walked j before)⟩
    · obtain ⟨k, below, here, before⟩ := stored.probed old
      exact ⟨k, below, carries here, fun j less => occupied (before j less)⟩

theorem stored_of_adds {added adds : List (List UInt8 × δ)} (stored : Stored htable added)
    (positive : 0 < htable.size)
    (made : adds.foldlM (fun htable a => hashtableAdd a.1 a.2 htable) htable = some htable') :
    htable'.size = htable.size ∧ Stored htable' (adds.reverse ++ added) := by
  induction adds generalizing htable added with
  | nil =>
      cases made
      exact ⟨rfl, stored⟩
  | cons a adds induction =>
      rw [List.foldlM_cons] at made
      cases first : hashtableAdd a.1 a.2 htable with
      | none =>
          rw [first] at made
          cases made
      | some middle =>
          rw [first] at made
          obtain ⟨size, stored'⟩ := stored.add positive first
          obtain ⟨size', stored''⟩ := induction stored' (size ▸ positive) made
          exact ⟨size'.trans size, by simpa using stored''⟩

/-! ## Lookup -/

theorem isexistRound_found {start pos : Nat} (carries : htable.Carries pos string) :
    isexistRound string htable start pos = .stop (.found pos) := by
  obtain ⟨item, here, exist, hashes⟩ := carries
  simp only [isexistRound, here, exist, hashes, if_true]

theorem isexistRound_onward {start pos : Nat} (occupied : htable.Occupied pos)
    (other : ¬ htable.Carries pos string) (onward : (pos + 1) % maxHashTableLen ≠ start) :
    isexistRound string htable start pos = .next ((pos + 1) % maxHashTableLen) := by
  obtain ⟨item, here, exist⟩ := occupied
  have hashes : (item.nhashA, item.nhashB) ≠ checkHashes string := fun same =>
    other ⟨item, here, exist, same⟩
  simp only [isexistRound, here, exist, hashes, if_true, if_false, onward]

theorem isexistRound_next {start pos pos' : Nat}
    (step : isexistRound string htable start pos = .next pos') :
    pos' = (pos + 1) % maxHashTableLen ∧ htable.Occupied pos ∧ pos' ≠ start := by
  unfold isexistRound at step
  split at step
  · cases step
  · rename_i item here
    split at step
    · rename_i exist
      split at step
      · cases step
      · simp only at step
        split at step
        · cases step
        · rename_i onward
          cases step
          exact ⟨rfl, ⟨item, here, exist⟩, onward⟩
    · cases step

theorem isexistRound_stop_found {start pos pos' : Nat}
    (step : isexistRound string htable start pos = .stop (.found pos')) :
    pos' = pos ∧ htable.Carries pos string := by
  unfold isexistRound at step
  split at step
  · cases step
  · rename_i item here
    split at step
    · rename_i exist
      split at step
      · rename_i hashes
        cases step
        exact ⟨rfl, item, here, exist, hashes⟩
      · simp only at step
        split at step <;> cases step
    · cases step

/-- Where lookup is after some rounds. -/
def walk (start j : Nat) : Nat := (fun pos => (pos + 1) % maxHashTableLen)^[j] start

theorem walk_of_lt {start : Nat} (inside : start < maxHashTableLen) (j : Nat) :
    walk start j = (start + j) % maxHashTableLen :=
  iterate_next_mod_of_lt inside j

theorem walk_succ (start j : Nat) : walk start (j + 1) = (start + 1 + j) % maxHashTableLen :=
  iterate_next_mod ..

/-- The walk of lookup leads to a slot that carries the string's hashes over slots in use before it
is back at its start. -/
def Succeeds (htable : Table δ) (string : List UInt8) (start : Nat) : Prop :=
  ∃ k, htable.Carries (walk start k) string ∧ (∀ j < k, htable.Occupied (walk start j)) ∧
    ∀ j < k, walk start (j + 1) ≠ start

/-- Lookup finds a slot exactly when its walk succeeds. -/
theorem hashtableIsexist_found_iff :
    (∃ fuel pos, hashtableIsexist fuel string htable = some (.found pos) ∧
        htable.Carries pos string) ↔ Succeeds htable string (hashStart string htable) := by
  generalize reach : hashStart string htable = start
  constructor
  · rintro ⟨fuel, pos, result, -⟩
    rw [hashtableIsexist, reach] at result
    obtain ⟨k, -, going, stops⟩ := exists_iterate_of_run
      (fun pos => (pos + 1) % maxHashTableLen) (fun step => (isexistRound_next step).1) result
    exact ⟨k, (isexistRound_stop_found stops).2,
      fun j less => (isexistRound_next (going j less)).2.1,
      fun j less => (isexistRound_next (going j less)).2.2⟩
  · rintro ⟨k, carries, occupied, onward⟩
    classical
    -- the walk stops at the first slot that carries the hashes
    have some : ∃ k, htable.Carries (walk start k) string := ⟨k, carries⟩
    have first := Nat.find_spec some
    have least : Nat.find some ≤ k := Nat.find_min' some carries
    refine ⟨Nat.find some + 1, walk start (Nat.find some), ?_, first⟩
    rw [hashtableIsexist, reach]
    refine run_of_path (walk start) (Nat.find some) (fun j less => ?_) (isexistRound_found first)
      (Nat.lt_succ_self _)
    have step : walk start (j + 1) = (walk start j + 1) % maxHashTableLen :=
      Function.iterate_succ_apply' ..
    rw [step]
    refine isexistRound_onward (occupied j (less.trans_le least)) (Nat.find_min some less) ?_
    rw [← step]
    exact onward j (less.trans_le least)

/-! ## The condition -/

/-- How far a slot is behind the one after the start, modulo `MAXHASHTABLELEN`. -/
def turn (start pos : Nat) : Nat :=
  (pos + (maxHashTableLen - (start + 1) % maxHashTableLen)) % maxHashTableLen

theorem walk_turn (start : Nat) {pos : Nat} (inside : pos < maxHashTableLen) :
    walk start (turn start pos + 1) = pos := by
  rw [walk_succ, turn]
  simp only [maxHashTableLen] at *
  omega

theorem turn_walk (start j : Nat) : turn start (walk start (j + 1)) = j % maxHashTableLen := by
  rw [walk_succ, turn]
  simp only [maxHashTableLen]
  omega

/-- Lookup meets a slot with the string's hashes in the part of the table it walks through.  In a
table smaller than `MAXHASHTABLELEN` that is the part from the start slot on; in a larger one it is
the start slot and, modulo `MAXHASHTABLELEN`, the slots after it up to a free one. -/
def Findable (htable : Table δ) (string : List UInt8) : Prop :=
  (htable.size < maxHashTableLen →
    ∃ pos, hashStart string htable ≤ pos ∧ htable.Carries pos string) ∧
  (maxHashTableLen < htable.size → htable.Carries (hashStart string htable) string ∨
    ∃ pos < maxHashTableLen, htable.Carries pos string ∧ ∀ q < maxHashTableLen,
      turn (hashStart string htable) q < turn (hashStart string htable) pos → htable.Occupied q)

/-- Insertion left the string's hashes in a slot to which its own walk leads over slots in use. -/
structure Placed (htable : Table δ) (string : List UInt8) (start k : Nat) : Prop where
  inside : start < htable.size
  below : k < htable.size
  carries : htable.Carries ((start + k) % htable.size) string
  before : ∀ j < k, htable.Occupied ((start + j) % htable.size)

namespace Placed

variable {start k : Nat} (placed : Placed htable string start k)
include placed

theorem start_occupied : htable.Occupied start := by
  have here : (start + 0) % htable.size = start := Nat.mod_eq_of_lt placed.inside
  cases k with
  | zero => exact here ▸ placed.carries.occupied
  | succ k => exact here ▸ placed.before 0 (Nat.succ_pos k)

/-- Up to its slot or the end of the table the walk of insertion goes through slots in use. -/
theorem occupied_from_start {pos : Nat} (after : start ≤ pos) (inside : pos < htable.size)
    (early : pos < start + k) : htable.Occupied pos := by
  have here := placed.before (pos - start) (by omega)
  rwa [Nat.add_sub_cancel' after, Nat.mod_eq_of_lt inside] at here

/-- In a table of `MAXHASHTABLELEN` slots both walks are the same. -/
theorem succeeds_of_eq (full : htable.size = maxHashTableLen) : Succeeds htable string start := by
  have inside := placed.inside
  have below := placed.below
  rw [full] at inside below
  have carries := placed.carries
  have before := placed.before
  rw [full] at carries before
  refine ⟨k, walk_of_lt inside k ▸ carries, fun j less => walk_of_lt inside j ▸ before j less,
    fun j less => ?_⟩
  rw [walk_of_lt inside]
  simp only [maxHashTableLen] at *
  omega

/-- In a smaller table lookup must not come to its end. -/
theorem succeeds_iff_of_lt (small : htable.size < maxHashTableLen) :
    Succeeds htable string start ↔ ∃ pos, start ≤ pos ∧ htable.Carries pos string := by
  have inside := placed.inside
  have walk_eq : ∀ {j}, start + j < maxHashTableLen → walk start j = start + j := fun less => by
    rw [walk_of_lt (by omega), Nat.mod_eq_of_lt less]
  constructor
  · rintro ⟨k', carries, occupied, -⟩
    have short : start + k' < htable.size := by
      by_contra long
      -- the walk would step on the slot past the end
      rcases Nat.lt_or_ge (htable.size - start) k' with past | last
      · have outside := (occupied (htable.size - start) past).lt
        rw [walk_eq (by omega)] at outside
        omega
      · obtain rfl : k' = htable.size - start := by omega
        have outside := carries.occupied.lt
        rw [walk_eq (by omega)] at outside
        omega
    rw [walk_eq (by omega)] at carries
    exact ⟨start + k', Nat.le_add_right .., carries⟩
  · rintro ⟨pos, after, carries⟩
    have pos_inside := carries.occupied.lt
    rcases Nat.lt_or_ge (start + k) pos with late | early
    · have here : (start + k) % htable.size = start + k := Nat.mod_eq_of_lt (by omega)
      refine ⟨k, ?_, fun j less => ?_, fun j less => ?_⟩
      · rw [walk_eq (by omega), ← here]
        exact placed.carries
      · rw [walk_eq (by omega)]
        exact placed.occupied_from_start (by omega) (by omega) (by omega)
      · rw [walk_eq (by omega)]
        omega
    · refine ⟨pos - start, ?_, fun j less => ?_, fun j less => ?_⟩
      · rw [walk_eq (by omega), Nat.add_sub_cancel' after]
        exact carries
      · rw [walk_eq (by omega)]
        exact placed.occupied_from_start (by omega) (by omega) (by omega)
      · rw [walk_eq (by omega)]
        omega

/-- In a larger table lookup walks through the first `MAXHASHTABLELEN` slots. -/
theorem succeeds_iff_of_gt :
    Succeeds htable string start ↔ htable.Carries start string ∨
      ∃ pos < maxHashTableLen, htable.Carries pos string ∧
        ∀ q < maxHashTableLen, turn start q < turn start pos → htable.Occupied q := by
  constructor
  · rintro ⟨k', carries, occupied, -⟩
    cases k' with
    | zero => exact Or.inl carries
    | succ k' =>
        refine Or.inr ⟨walk start (k' + 1), ?_, carries, fun q inside earlier => ?_⟩
        · rw [walk_succ]
          exact Nat.mod_lt _ (by decide)
        · rw [turn_walk] at earlier
          have less : turn start q + 1 < k' + 1 :=
            Nat.succ_lt_succ (earlier.trans_le (Nat.mod_le ..))
          rw [← walk_turn start inside]
          exact occupied _ less
  · rintro (carries | ⟨pos, inside, carries, occupied⟩)
    · exact ⟨0, carries, fun j none => (Nat.not_lt_zero j none).elim,
        fun j none => (Nat.not_lt_zero j none).elim⟩
    · by_cases here : pos = start
      · subst here
        exact ⟨0, carries, fun j none => (Nat.not_lt_zero j none).elim,
          fun j none => (Nat.not_lt_zero j none).elim⟩
      · refine ⟨turn start pos + 1, ?_, fun j less => ?_, fun j less back => ?_⟩
        · rwa [walk_turn start inside]
        · cases j with
          | zero => exact placed.start_occupied
          | succ j =>
              have earlier : turn start (walk start (j + 1)) < turn start pos := by
                rw [turn_walk]
                exact (Nat.mod_le ..).trans_lt (Nat.lt_of_succ_lt_succ less)
              refine occupied _ ?_ earlier
              rw [walk_succ]
              exact Nat.mod_lt _ (by decide)
        · -- the walk comes back to its start only after `MAXHASHTABLELEN` rounds
          have turned := walk_turn start inside
          rw [walk_succ] at back turned
          simp only [maxHashTableLen, turn] at *
          omega

theorem succeeds_iff_findable (reach : hashStart string htable = start) :
    Succeeds htable string start ↔ Findable htable string := by
  unfold Findable
  rw [reach]
  rcases Nat.lt_trichotomy htable.size maxHashTableLen with small | full | large
  · rw [placed.succeeds_iff_of_lt small]
    exact ⟨fun found => ⟨fun _ => found, fun large => absurd small large.asymm⟩,
      fun found => found.1 small⟩
  · exact ⟨fun _ => ⟨fun small => absurd full small.ne, fun large => absurd full large.ne'⟩,
      fun _ => placed.succeeds_of_eq full⟩
  · rw [placed.succeeds_iff_of_gt]
    exact ⟨fun found => ⟨fun small => absurd large small.asymm, fun _ => found⟩,
      fun found => found.2 large⟩

end Placed

/-! ## Lookup after insertion -/

/-- Lookup of a string agrees with the strings added: one that is equal up to case makes it end
inside the table at a slot with the data of an added string of the same check hashes, and an answer
of -1 means that there is none. -/
structure Agrees (htable : Table δ) (added : List (List UInt8 × δ)) (string : List UInt8) :
    Prop where
  finds : (∃ a ∈ added, SameUpToCase string a.1) →
    ∃ fuel pos item, hashtableIsexist fuel string htable = some (.found pos) ∧
      htable.slot pos = some item ∧
      ∃ a ∈ added, item.data = some a.2 ∧ checkHashes a.1 = checkHashes string
  absent : (∃ fuel, hashtableIsexist fuel string htable = some .absent) →
    ¬ ∃ a ∈ added, SameUpToCase string a.1

theorem checkHashes_congr {string' : List UInt8} (same : SameUpToCase string string') :
    checkHashes string = checkHashes string' := by
  rw [checkHashes, checkHashes, hashstring_congr same, hashstring_congr same]

theorem Stored.placed {added : List (List UInt8 × δ)} (stored : Stored htable added)
    (positive : 0 < htable.size) {a : List UInt8 × δ} (member : a ∈ added)
    (same : SameUpToCase string a.1) :
    ∃ k, Placed htable string (hashStart string htable) k := by
  obtain ⟨k, below, ⟨item, here, exist, hashes⟩, before⟩ := stored.probed member
  have start : hashStart string htable = hashStart a.1 htable := by
    rw [hashStart, hashStart, hashstring_congr same]
  rw [start]
  exact ⟨k, Nat.mod_lt _ positive, below,
    ⟨item, here, exist, hashes.trans (checkHashes_congr same).symm⟩, before⟩

/-- The exact condition under which lookup agrees with insertion. -/
theorem hashtable_isexist_agrees_iff (n : Nat) (positive : 0 < n) (adds : List (List UInt8 × δ))
    (htable : Table δ) (string : List UInt8)
    (made : adds.foldlM (fun htable a => hashtableAdd a.1 a.2 htable) (hashtableInit n) =
      some htable) :
    Agrees htable adds string ↔
      ((∃ a ∈ adds, SameUpToCase string a.1) → Findable htable string) := by
  obtain ⟨size, stored⟩ := stored_of_adds (stored_init n) positive made
  have members : ∀ a, a ∈ adds.reverse ++ [] ↔ a ∈ adds := by simp
  have htable_positive : 0 < htable.size := size ▸ positive
  have found_iff : (∃ fuel pos, hashtableIsexist fuel string htable = some (.found pos) ∧
      htable.Carries pos string) ↔ _ := hashtableIsexist_found_iff
  constructor
  · rintro agrees ⟨a, member, same⟩
    obtain ⟨k, placed⟩ := stored.placed htable_positive ((members a).mpr member) same
    obtain ⟨fuel, pos, item, found, -⟩ := agrees.finds ⟨a, member, same⟩
    rw [← placed.succeeds_iff_findable rfl, ← found_iff]
    refine ⟨fuel, pos, found, ?_⟩
    obtain ⟨k', -, -, stops⟩ := exists_iterate_of_run
      (fun pos => (pos + 1) % maxHashTableLen) (fun step => (isexistRound_next step).1) found
    obtain ⟨rfl, carries⟩ := isexistRound_stop_found stops
    exact carries
  · intro findable
    have finds : (∃ a ∈ adds, SameUpToCase string a.1) →
        ∃ fuel pos, hashtableIsexist fuel string htable = some (.found pos) ∧
          htable.Carries pos string := by
      rintro ⟨a, member, same⟩
      obtain ⟨k, placed⟩ := stored.placed htable_positive ((members a).mpr member) same
      rw [found_iff, placed.succeeds_iff_findable rfl]
      exact findable ⟨a, member, same⟩
    constructor
    case finds =>
      intro same
      obtain ⟨fuel, pos, found, item, here, exist, hashes⟩ := finds same
      obtain ⟨a, member, data, hashes'⟩ := stored.source here exist
      exact ⟨fuel, pos, item, found, here, a, (members a).mp member, data,
        hashes'.symm.trans hashes⟩
    case absent =>
      rintro ⟨fuel, absent⟩ same
      obtain ⟨fuel', pos, found, -⟩ := finds same
      cases run_unique absent found

/-- `NJ`, `OE` and `A` are added. -/
def collidingAdds : List (List UInt8 × Nat) := [([78, 74], 1), ([79, 69], 2), ([65], 3)]

/-- `NJ` and `OE` have one start slot of `MAXHASHTABLELEN`; `oe` and a string that was not added are
looked up. -/
theorem hashtable_isexist_agrees_iff_colliding :
    hashStart [78, 74] (hashtableInit 1024 : Table Nat) =
        hashStart [79, 69] (hashtableInit 1024 : Table Nat) ∧
      ∃ htable, collidingAdds.foldlM (fun htable a => hashtableAdd a.1 a.2 htable)
          (hashtableInit 1024) = some htable ∧
        Agrees htable collidingAdds [111, 101] ∧ Agrees htable collidingAdds [66] := by
  have added : (collidingAdds.foldlM (fun htable a => hashtableAdd a.1 a.2 htable)
      (hashtableInit 1024)).isSome := by
    decide +kernel
  obtain ⟨htable, made⟩ := Option.isSome_iff_exists.mp added
  have size : htable.size = 1024 := (stored_of_adds (stored_init 1024) (by decide) made).1
  have findable (string : List UInt8) : Findable htable string :=
    ⟨fun small => absurd size small.ne, fun large => absurd size large.ne'⟩
  have agrees (string : List UInt8) : Agrees htable collidingAdds string :=
    (hashtable_isexist_agrees_iff 1024 (by decide) collidingAdds htable string made).mpr
      fun _ => findable string
  exact ⟨by decide +kernel, htable, made, agrees [111, 101], agrees [66]⟩

/-- In a table of two slots `B` is stored before its start slot, and lookup leaves the table. -/
theorem hashtable_isexist_not_agrees :
    ¬ ∀ (n : Nat) (adds : List (List UInt8 × Unit)) (htable : Table Unit) (string : List UInt8),
      0 < n → adds.foldlM (fun htable a => hashtableAdd a.1 a.2 htable) (hashtableInit n) =
        some htable → Agrees htable adds string := by
  intro agrees
  let adds : List (List UInt8 × Unit) := [([65], ()), ([66], ())]
  have leaves : (adds.foldlM (fun htable a => hashtableAdd a.1 a.2 htable) (hashtableInit 2)).map
      (hashtableIsexist 2 [66]) = some (some (.outOfBounds 2)) := by
    decide +kernel
  obtain ⟨htable, made, outside⟩ := Option.map_eq_some_iff.mp leaves
  obtain ⟨fuel, pos, item, found, -⟩ :=
    (agrees 2 adds htable [66] (by decide) made).finds ⟨([66], ()), by simp [adds], rfl⟩
  cases run_unique outside found

end HashTable
end OstrichServer
