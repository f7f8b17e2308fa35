import OstrichServer.Foundations.Loop

/-!
# The header hash table of `hashtable.c`

The one-way hash with its table of pseudo-random words, and an open table of slots: insertion walks
the slots modulo the size of the table, lookup modulo `MAXHASHTABLELEN`.  A slot keeps two more
hashes of the string instead of the string.
-/

namespace OstrichServer
namespace HashTable

open Loop

/-! ## The hash -/

/-- `seed = (seed * 125 + 3) % 0x2AAAAB` -/
def nextSeed (seed : UInt32) : UInt32 := (seed * 125 + 3) % 0x2AAAAB

/-- `for (index2 = index1, i = 0; i < 5; i++, index2 += 0x100)`, with the rounds that are left.
`assign` is the assignment `crypttable[index2] = (t1 | t2)`. -/
def crypttableInner {μ : Type} (assign : μ → Nat → UInt32 → μ) : Nat → Nat → UInt32 × μ → UInt32 × μ
  | 0, _, state => state
  | rounds + 1, index2, (seed, crypttable) =>
      let seed := nextSeed seed
      let t1 := (seed &&& 0xFFFF) <<< 0x10
      let seed := nextSeed seed
      let t2 := seed &&& 0xFFFF
      crypttableInner assign rounds (index2 + 0x100) (seed, assign crypttable index2 (t1 ||| t2))

/-- `for (index1 = 0; index1 < 0x100; index1++)`, with the rounds that are left. -/
def crypttableOuter {μ : Type} (assign : μ → Nat → UInt32 → μ) : Nat → Nat → UInt32 × μ → UInt32 × μ
  | 0, _, state => state
  | rounds + 1, index1, state =>
      crypttableOuter assign rounds (index1 + 1) (crypttableInner assign 5 index1 state)

/-- `crypttable_init`, on what keeps the table. -/
def crypttableInit {μ : Type} (assign : μ → Nat → UInt32 → μ) (crypttable : μ) : μ :=
  (crypttableOuter assign 0x100 0 (0x00100001, crypttable)).2

/-- `crypttable` after `crypttable_init`. -/
def crypttable : Nat → UInt32 :=
  crypttableInit (fun table i word => Function.update table i word) fun _ => 0

/-- `toupper` in the C locale. -/
def toupper (ch : UInt8) : UInt8 := if 97 ≤ ch ∧ ch ≤ 122 then ch - 32 else ch

/-- `while (*key != 0)` over the bytes of a string, with `seed1` and `seed2`. -/
def hashBytes (crypttable : Nat → UInt32) (hashtype : Nat) : UInt32 → UInt32 → List UInt8 → UInt32
  | seed1, _, [] => seed1
  | seed1, seed2, key :: rest =>
      let ch := toupper key
      let seed1 := crypttable ((hashtype <<< 8) + ch.toNat) ^^^ (seed1 + seed2)
      let seed2 := ch.toUInt32 + seed1 + seed2 + (seed2 <<< 5) + 3
      hashBytes crypttable hashtype seed1 seed2 rest

/-- `hashstring`, with what is in `crypttable`. -/
def hashstringWith (crypttable : Nat → UInt32) (string : List UInt8) (hashtype : Nat) : UInt32 :=
  hashBytes crypttable hashtype 0x7FED7FED 0xEEEEEEEE string

/-- `hashstring` after `crypttable_init`. -/
def hashstring (string : List UInt8) (hashtype : Nat) : UInt32 :=
  hashstringWith crypttable string hashtype

/-! ## The table -/

/-- `MAXHASHTABLELEN` -/
abbrev maxHashTableLen : Nat := 1024

/-- `hashitem`; the data of a slot never used is not initialised. -/
structure HashItem (δ : Type) where
  nhashA : UInt32
  nhashB : UInt32
  exist : Bool
  data : Option δ

/-- `hashtable` -/
structure Table (δ : Type) where
  size : Nat
  buckets : Fin size → HashItem δ

variable {δ : Type}

/-- The slot at a position, if the position is inside the table. -/
def Table.slot (htable : Table δ) (pos : Nat) : Option (HashItem δ) :=
  if inside : pos < htable.size then some (htable.buckets ⟨pos, inside⟩) else none

/-- `hashtable_init` -/
def hashtableInit (ntablelength : Nat) : Table δ where
  size := ntablelength
  buckets := fun _ => { nhashA := 0xFFFFFFFF, nhashB := 0xFFFFFFFF, exist := false, data := none }

/-- Where the walks for a string start. -/
def hashStart (string : List UInt8) (htable : Table δ) : Nat :=
  (hashstring string 0).toNat % htable.size

/-- The two hashes a slot keeps of a string. -/
def checkHashes (string : List UInt8) : UInt32 × UInt32 :=
  (hashstring string 1, hashstring string 2)

/-- A round of `while ((_phtable + nhashpos)->exist)` in `hashtable_add`, which stops at a free slot
or with nothing when the table is full. -/
def addRound (htable : Table δ) (nhashstart nhashpos : Nat) :
    Round Nat (Option (Fin htable.size)) :=
  if inside : nhashpos < htable.size then
    if (htable.buckets ⟨nhashpos, inside⟩).exist then
      let nhashpos := (nhashpos + 1) % htable.size
      if nhashpos = nhashstart then .stop none else .next nhashpos
    else .stop (some ⟨nhashpos, inside⟩)
  else .stop none

/-- `hashtable_add`, which returned 1 when it gives a table.  The loop visits every slot at most
once. -/
def hashtableAdd (string : List UInt8) (data : δ) (htable : Table δ) : Option (Table δ) :=
  let nhashstart := hashStart string htable
  match run (addRound htable nhashstart) (htable.size + 1) nhashstart with
  | some (some pos) =>
      some { htable with
        buckets := Function.update htable.buckets pos
          { nhashA := (checkHashes string).1
            nhashB := (checkHashes string).2
            exist := true
            data := some data } }
  | _ => none

/-- What `hashtable_isexist` comes to. -/
inductive Lookup
  | found (nhashpos : Nat)
  /-- It returned -1. -/
  | absent
  /-- It reads a slot past the end of the table. -/
  | outOfBounds (nhashpos : Nat)
  deriving DecidableEq

/-- A round of `while ((_phtable + nhashpos)->exist)` in `hashtable_isexist`. -/
def isexistRound (string : List UInt8) (htable : Table δ) (nhashstart nhashpos : Nat) :
    Round Nat Lookup :=
  match htable.slot nhashpos with
  | none => .stop (.outOfBounds nhashpos)
  | some item =>
      if item.exist then
        if (item.nhashA, item.nhashB) = checkHashes string then .stop (.found nhashpos)
        else
          let nhashpos := (nhashpos + 1) % maxHashTableLen
          if nhashpos = nhashstart then .stop .absent else .next nhashpos
      else .stop .absent

/-- `hashtable_isexist`, with a bound on the rounds of its loop. -/
def hashtableIsexist (fuel : Nat) (string : List UInt8) (htable : Table δ) : Option Lookup :=
  let nhashstart := hashStart string htable
  run (isexistRound string htable nhashstart) fuel nhashstart

/-! ## Case folding -/

/-- Equal up to ASCII letter case. -/
def SameUpToCase (string string' : List UInt8) : Prop := string.map toupper = string'.map toupper

theorem hashBytes_congr (crypttable : Nat → UInt32) (hashtype : Nat) {string string' : List UInt8}
    (same : SameUpToCase string string') (seed1 seed2 : UInt32) :
    hashBytes crypttable hashtype seed1 seed2 string =
      hashBytes crypttable hashtype seed1 seed2 string' := by
  induction string generalizing string' seed1 seed2 with
  | nil =>
      have empty : string' = [] := by simpa [SameUpToCase] using same.symm
      rw [empty]
  | cons key rest induction =>
      cases string' with
      | nil => simp [SameUpToCase] at same
      | cons key' rest' =>
          obtain ⟨fold, tail⟩ : toupper key = toupper key' ∧ SameUpToCase rest rest' := by
            simpa [SameUpToCase] using same
          rw [hashBytes, hashBytes, fold]
          exact induction tail _ _

/-- The hash does not see the case of letters. -/
theorem hashstring_congr {string string' : List UInt8} (same : SameUpToCase string string')
    (hashtype : Nat) : hashstring string hashtype = hashstring string' hashtype :=
  hashBytes_congr crypttable hashtype same _ _

end HashTable
end OstrichServer
