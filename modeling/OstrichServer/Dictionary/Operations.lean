import OstrichServer.Foundations.Loop

/-!
# The dict of `dict.c`

Two tables of chained buckets, the second one in use while entries are moved into it bucket by
bucket.  Where the C code would touch a bucket outside a table, or let an `int` pass its bounds,
the operations here give nothing.  The lock, `privdata`, `iterators` and the callbacks that copy or
free keys and values are left out.
-/

namespace OstrichServer
namespace Dictionary

open Loop

/-- `INT_MAX` -/
abbrev intMax : Nat := 2 ^ 31 - 1

/-- `LONG_MAX` -/
abbrev longMax : Nat := 2 ^ 63 - 1

/-- `DICT_HT_SIZE` -/
abbrev dictHtSize : Nat := 100

/-- `DICT_RESIZE_RATIO` -/
abbrev dictResizeRatio : Nat := 5

/-- What the operations return. -/
inductive Status
  | osOk
  | osErr
  deriving DecidableEq

/-- `dict_type` -/
structure DictType (κ : Type) where
  hash : κ → UInt32
  keyCmp : κ → κ → Int

/-- `dict_entry`; `next` is the order of the chain. -/
structure DictEntry (κ υ : Type) where
  key : κ
  val : υ
  deriving DecidableEq

/-- `dictht`; the size is 0 when `table` is `NULL`. -/
structure DictHt (κ υ : Type) where
  table : Nat → List (DictEntry κ υ)
  size : Nat
  sizemask : Nat
  used : Nat

/-- `dict` -/
structure Dict (κ υ : Type) where
  ht0 : DictHt κ υ
  ht1 : DictHt κ υ
  rehashidx : Int

variable {κ υ : Type} (type : DictType κ)

/-! ## One table -/

/-- `_dict_reset` -/
def dictReset : DictHt κ υ := { table := fun _ => [], size := 0, sizemask := 0, used := 0 }

/-- `h & ht->sizemask` -/
def DictHt.index (ht : DictHt κ υ) (h : UInt32) : Nat := h.toNat &&& ht.sizemask

/-- `ht->table[idx]`, if that is inside the table. -/
def DictHt.bucket (ht : DictHt κ υ) (idx : Nat) : Option (List (DictEntry κ υ)) :=
  if idx < ht.size then some (ht.table idx) else none

/-- `entry->next = ht->table[idx]; ht->table[idx] = entry; ht->used++` -/
def DictHt.push (ht : DictHt κ υ) (idx : Nat) (entry : DictEntry κ υ) : Option (DictHt κ υ) :=
  if idx < ht.size then
    some { ht with
      table := Function.update ht.table idx (entry :: ht.table idx)
      used := ht.used + 1 }
  else none

/-- An `unsigned int` taken for an `int`. -/
def toInt (idx : Nat) : Int := if idx ≤ intMax then idx else idx - 2 ^ 32

/-! ## Creating and growing -/

/-- `dict_create` -/
def dictCreate : Dict κ υ := { ht0 := dictReset, ht1 := dictReset, rehashidx := -1 }

/-- `dict_isrehashing` -/
def Dict.isRehashing (d : Dict κ υ) : Bool := d.rehashidx ≠ -1

/-- A round of `for (;;)` in `_dict_next_power`. -/
def nextPowerRound (size i : Nat) : Round Nat Nat := if size ≤ i then .stop i else .next (i * 2)

/-- `_dict_next_power`; 58 rounds lead from `DICT_HT_SIZE` past `LONG_MAX`, and not past
`ULONG_MAX`. -/
def dictNextPower (size : Nat) : Nat :=
  if longMax ≤ size then longMax else (run (nextPowerRound size) 58 dictHtSize).getD longMax

/-- `dict_expand` -/
def dictExpand (d : Dict κ υ) (size : Nat) : Status × Dict κ υ :=
  let realsize := dictNextPower size
  if d.isRehashing ∨ size < d.ht0.used then (.osErr, d)
  else
    let n : DictHt κ υ :=
      { table := fun _ => [], size := realsize, sizemask := realsize - 1, used := 0 }
    if d.ht0.size = 0 then (.osOk, { d with ht0 := n })
    else (.osOk, { d with ht1 := n, rehashidx := 0 })

/-- `_dict_expand_if_needed` -/
def dictExpandIfNeeded (d : Dict κ υ) : Status × Dict κ υ :=
  if d.isRehashing then (.osOk, d)
  else if d.ht0.size = 0 then dictExpand d dictHtSize
  else if d.ht0.size ≤ d.ht0.used ∧ dictResizeRatio < d.ht0.used / d.ht0.size then
    dictExpand d (d.ht0.used * 2)
  else (.osOk, d)

/-! ## Inserting and looking up -/

/-- `while (he) { if (dict_cmp_key(d, key, he->key)) return -1; .. }` over a chain: whether it
returns. -/
def refuses (key : κ) (chain : List (DictEntry κ υ)) : Bool :=
  chain.any fun he => type.keyCmp key he.key ≠ 0

/-- `_dict_key_index`, with the dict it may have grown. -/
def dictKeyIndex (d : Dict κ υ) (key : κ) : Option (Int × Dict κ υ) :=
  match dictExpandIfNeeded d with
  | (.osErr, d) => some (-1, d)
  | (.osOk, d) => do
      let h := type.hash key
      let idx := d.ht0.index h
      let chain ← d.ht0.bucket idx
      if refuses type key chain then return (-1, d)
      if ¬ d.isRehashing then return (toInt idx, d)
      let idx := d.ht1.index h
      let chain ← d.ht1.bucket idx
      if refuses type key chain then return (-1, d)
      return (toInt idx, d)

/-- `dict_add_raw` and the value that `dict_add` then sets in the entry: the status of `dict_add`
and the dict. -/
def dictAdd (d : Dict κ υ) (key : κ) (val : υ) : Option (Status × Dict κ υ) := do
  let (index, d) ← dictKeyIndex type d key
  if index = -1 then return (.osErr, d)
  if index < 0 then none
  let entry := { key, val }
  if d.isRehashing then
    let ht1 ← d.ht1.push index.toNat entry
    return (.osOk, { d with ht1 })
  else
    let ht0 ← d.ht0.push index.toNat entry
    return (.osOk, { d with ht0 })

/-- `while (he) { if (!dict_cmp_key(d, key, he->key)) goto done; .. }` over a chain. -/
def findIn (key : κ) (chain : List (DictEntry κ υ)) : Option (DictEntry κ υ) :=
  chain.find? fun he => type.keyCmp key he.key = 0

/-- `dict_find` -/
def dictFind (d : Dict κ υ) (key : κ) : Option (Option (DictEntry κ υ)) := do
  if d.ht0.size = 0 then return none
  let h := type.hash key
  let chain ← d.ht0.bucket (d.ht0.index h)
  if let some he := findIn type key chain then return some he
  if ¬ d.isRehashing then return none
  let chain ← d.ht1.bucket (d.ht1.index h)
  return findIn type key chain

/-! ## Rehashing -/

/-- `while (d->ht[0].table[d->rehashidx] == NULL) d->rehashidx++`, with the buckets that are left in
the table. -/
def skipEmpty (ht : DictHt κ υ) : Nat → Nat → Option Nat
  | 0, _ => none
  | rest + 1, rehashidx =>
      if ht.table rehashidx = [] then skipEmpty ht rest (rehashidx + 1) else some rehashidx

/-- `while (de)` over the chain that is moved into `ht[1]`. -/
def moveChain : List (DictEntry κ υ) → DictHt κ υ × DictHt κ υ → Option (DictHt κ υ × DictHt κ υ)
  | [], tables => some tables
  | de :: denext, (ht0, ht1) => do
      let ht1 ← ht1.push (ht1.index (type.hash de.key)) de
      moveChain denext ({ ht0 with used := ht0.used - 1 }, ht1)

/-- A round of `while (n--)` in `dict_rehash`, which stops with what the function returns. -/
def rehashRound : Int × Dict κ υ → Round (Int × Dict κ υ) (Option (Int × Dict κ υ))
  | (n, d) =>
      if n = 0 then .stop (some (1, d))
      else if n = -2 ^ 31 then .stop none
      else if d.ht0.used = 0 then
        .stop (some (0, { ht0 := d.ht1, ht1 := dictReset, rehashidx := -1 }))
      else
        let moved := do
          let idx ← skipEmpty d.ht0 (d.ht0.size - d.rehashidx.toNat) d.rehashidx.toNat
          let (ht0, ht1) ← moveChain type (d.ht0.table idx) (d.ht0, d.ht1)
          if intMax ≤ idx then none
          return { ht0 := { ht0 with table := Function.update ht0.table idx [] }
                   ht1
                   rehashidx := idx + 1 }
        match moved with
        | none => .stop none
        | some d => .next (n - 1, d)

/-- `dict_rehash`; every round but the last moves an entry out of `ht[0]`. -/
def dictRehash (d : Dict κ υ) (n : Int) : Option (Int × Dict κ υ) :=
  if d.isRehashing then (run (rehashRound type) (d.ht0.used + 1) (n, d)).join else some (0, d)

end Dictionary
end OstrichServer
