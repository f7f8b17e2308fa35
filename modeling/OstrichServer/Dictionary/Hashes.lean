import OstrichServer.Dictionary.StringKeys
import OstrichServer.Foundations.WordMixing
import Mathlib.Data.UInt

/-!
# The hash functions of `dict.c`

Different numbers have different hashes, and so have two keys that differ within one word of the
general hash or in one letter of the hash of strings.
-/

namespace OstrichServer
namespace Dictionary

open Function WordMixing

/-! ## Numbers -/

/-- `dict_int_key` -/
def dictIntKey (key : UInt32) : UInt32 :=
  let key := key + ~~~(key <<< 15)
  let key := key ^^^ (key >>> 10)
  let key := key + (key <<< 3)
  let key := key ^^^ (key >>> 6)
  let key := key + ~~~(key <<< 11)
  key ^^^ (key >>> 16)

section Steps

variable {f : UInt32 → UInt32} {g : BitVec 32 → BitVec 32}

/-- A function of words is injective as it is on their bits. -/
theorem injective_of_toBitVec (bits : ∀ x, (f x).toBitVec = g x.toBitVec)
    (injective : Injective g) :
    Injective f := by
  intro x y same
  apply UInt32.toBitVec_inj.mp
  apply injective
  rw [← bits, ← bits, same]

end Steps

/-- Every number is the hash of exactly one number. -/
theorem dict_int_key_bijective : Bijective dictIntKey := by
  have finite : Finite UInt32 := .of_injective UInt32.toFin fun _ _ => UInt32.toFin_inj.mp
  rw [← Finite.injective_iff_bijective]
  have step₁ : Injective fun key : UInt32 => key + ~~~(key <<< 15) :=
    injective_of_toBitVec (fun _ => rfl) (add_not_shiftLeft_injective (k := 15) (by decide))
  have step₂ : Injective fun key : UInt32 => key ^^^ (key >>> 10) :=
    injective_of_toBitVec (fun _ => rfl) (xor_ushiftRight_injective (k := 10) (by decide))
  have step₃ : Injective fun key : UInt32 => key + (key <<< 3) :=
    injective_of_toBitVec (fun _ => rfl) (add_shiftLeft_injective (k := 3) (by decide))
  have step₄ : Injective fun key : UInt32 => key ^^^ (key >>> 6) :=
    injective_of_toBitVec (fun _ => rfl) (xor_ushiftRight_injective (k := 6) (by decide))
  have step₅ : Injective fun key : UInt32 => key + ~~~(key <<< 11) :=
    injective_of_toBitVec (fun _ => rfl) (add_not_shiftLeft_injective (k := 11) (by decide))
  have step₆ : Injective fun key : UInt32 => key ^^^ (key >>> 16) :=
    injective_of_toBitVec (fun _ => rfl) (xor_ushiftRight_injective (k := 16) (by decide))
  exact step₆.comp (step₅.comp (step₄.comp (step₃.comp (step₂.comp step₁))))

/-! ## Bytes -/

/-- `m` of `dict_gen_key` -/
def murmurM : UInt32 := 0x5bd1e995

/-- `*(uint32_t*)data` on a machine that stores the low byte first. -/
def uint32At (d0 d1 d2 d3 : UInt8) : UInt32 :=
  .ofNat (d0.toNat + 2 ^ 8 * d1.toNat + 2 ^ 16 * d2.toNat + 2 ^ 24 * d3.toNat)

/-- A round of the `while` loop of `dict_gen_key`. -/
def genKeyRound (h k : UInt32) : UInt32 :=
  let k := k * murmurM
  let k := k ^^^ (k >>> 24)
  let k := k * murmurM
  let h := h * murmurM
  h ^^^ k

/-- The loop and the `switch` of `dict_gen_key`. -/
def genKeyBytes : UInt32 → List UInt8 → UInt32
  | h, d0 :: d1 :: d2 :: d3 :: data => genKeyBytes (genKeyRound h (uint32At d0 d1 d2 d3)) data
  | h, [d0, d1, d2] =>
      (h ^^^ (d2.toUInt32 <<< 16) ^^^ (d1.toUInt32 <<< 8) ^^^ d0.toUInt32) * murmurM
  | h, [d0, d1] => (h ^^^ (d1.toUInt32 <<< 8) ^^^ d0.toUInt32) * murmurM
  | h, [d0] => (h ^^^ d0.toUInt32) * murmurM
  | h, [] => h

/-- `dict_gen_key` on the `len` bytes of a key. -/
def dictGenKey (key : List UInt8) : UInt32 :=
  let h := genKeyBytes (5381 ^^^ .ofNat key.length) key
  let h := h ^^^ (h >>> 13)
  let h := h * murmurM
  h ^^^ (h >>> 15)

theorem mul_murmurM_injective : Injective fun h : UInt32 => h * murmurM :=
  injective_of_toBitVec (fun _ => rfl) (mul_injective
    (show (0x5bd1e995 : BitVec 32) * 0xe59b19bd = 1 by decide))

theorem xor_injective (k : UInt32) : Injective fun h : UInt32 => h ^^^ k :=
  injective_of_toBitVec (fun _ => rfl) (xor_left_injective k.toBitVec)

theorem genKeyRound_injective (k : UInt32) : Injective fun h => genKeyRound h k :=
  (xor_injective _).comp mul_murmurM_injective

theorem genKeyRound_injective_word (h : UInt32) : Injective (genKeyRound h) := by
  have shift : Injective fun k : UInt32 => k ^^^ (k >>> 24) :=
    injective_of_toBitVec (fun _ => rfl) (xor_ushiftRight_injective (k := 24) (by decide))
  have mixed := mul_murmurM_injective.comp (shift.comp mul_murmurM_injective)
  intro k k' same
  refine mixed (xor_injective (h * murmurM) ?_)
  dsimp only
  rw [UInt32.xor_comm, UInt32.xor_comm _ (h * murmurM)]
  exact same

theorem uint32At_inj {d0 d1 d2 d3 e0 e1 e2 e3 : UInt8}
    (same : uint32At d0 d1 d2 d3 = uint32At e0 e1 e2 e3) :
    d0 = e0 ∧ d1 = e1 ∧ d2 = e2 ∧ d3 = e3 := by
  have bound : ∀ d : UInt8, d.toNat < 2 ^ 8 := UInt8.toNat_lt
  have size : UInt32.size = 2 ^ 32 := rfl
  have := bound d0
  have := bound d1
  have := bound d2
  have := bound d3
  have := bound e0
  have := bound e1
  have := bound e2
  have := bound e3
  have values := congrArg UInt32.toNat same
  rw [uint32At, uint32At, UInt32.toNat_ofNat_of_lt' (by omega),
    UInt32.toNat_ofNat_of_lt' (by omega)] at values
  simp only [← UInt8.toNat_inj]
  omega

/-- No state is lost. -/
theorem genKeyBytes_injective (data : List UInt8) : Injective fun h => genKeyBytes h data := by
  intro h h' same
  dsimp only at same
  induction h, data using genKeyBytes.induct generalizing h' with
  | case1 h d0 d1 d2 d3 data induction =>
      rw [genKeyBytes, genKeyBytes] at same
      exact genKeyRound_injective _ (induction same)
  | case2 h d0 d1 d2 =>
      exact xor_injective _ (xor_injective _ (xor_injective _ (mul_murmurM_injective same)))
  | case3 h d0 d1 => exact xor_injective _ (xor_injective _ (mul_murmurM_injective same))
  | case4 h d0 => exact xor_injective _ (mul_murmurM_injective same)
  | case5 h => exact same

theorem shiftLeft_xor_inj {k a b a' b' : Nat} (small : b < 2 ^ k) (small' : b' < 2 ^ k)
    (same : a <<< k ^^^ b = a' <<< k ^^^ b') : a = a' ∧ b = b' := by
  have high : ∀ {a b : Nat}, b < 2 ^ k → (a <<< k ^^^ b) / 2 ^ k = a := by
    intro a b small
    rw [Nat.xor_div_two_pow, Nat.div_eq_of_lt small, Nat.xor_zero, Nat.shiftLeft_eq,
      Nat.mul_div_cancel _ (Nat.two_pow_pos k)]
  have low : ∀ {a b : Nat}, b < 2 ^ k → (a <<< k ^^^ b) % 2 ^ k = b := by
    intro a b small
    rw [Nat.xor_mod_two_pow, Nat.mod_eq_of_lt small, Nat.shiftLeft_eq, Nat.mul_mod_left,
      Nat.zero_xor]
  exact ⟨(high small).symm.trans ((congrArg (· / 2 ^ k) same).trans (high small')),
    (low small).symm.trans ((congrArg (· % 2 ^ k) same).trans (low small'))⟩

theorem toNat_shiftLeft_byte (d : UInt8) {k : UInt32} (small : k.toNat ≤ 24) :
    (d.toUInt32 <<< k).toNat = d.toNat <<< k.toNat := by
  have shift : k.toNat % 32 = k.toNat := Nat.mod_eq_of_lt (by omega)
  rw [UInt32.toNat_shiftLeft, shift, UInt8.toNat_toUInt32, Nat.shiftLeft_eq]
  apply Nat.mod_eq_of_lt
  calc d.toNat * 2 ^ k.toNat < 2 ^ 8 * 2 ^ k.toNat :=
        Nat.mul_lt_mul_of_pos_right d.toNat_lt (Nat.two_pow_pos _)
    _ = 2 ^ (8 + k.toNat) := (pow_add ..).symm
    _ ≤ 2 ^ 32 := Nat.pow_le_pow_right (by decide) (by omega)

/-- What the `switch` takes from two bytes. -/
theorem xor_bytes_inj {d0 d1 e0 e1 : UInt8}
    (same : d1.toUInt32 <<< 8 ^^^ d0.toUInt32 = e1.toUInt32 <<< 8 ^^^ e0.toUInt32) :
    d0 = e0 ∧ d1 = e1 := by
  have values := congrArg UInt32.toNat same
  rw [UInt32.toNat_xor, UInt32.toNat_xor, toNat_shiftLeft_byte d1 (by decide),
    toNat_shiftLeft_byte e1 (by decide)] at values
  obtain ⟨second, first⟩ := shiftLeft_xor_inj d0.toNat_lt e0.toNat_lt values
  exact ⟨UInt8.toNat_inj.mp first, UInt8.toNat_inj.mp second⟩

/-- What the `switch` takes from three bytes. -/
theorem xor_three_bytes_inj {d0 d1 d2 e0 e1 e2 : UInt8}
    (same : d2.toUInt32 <<< 16 ^^^ (d1.toUInt32 <<< 8 ^^^ d0.toUInt32) =
      e2.toUInt32 <<< 16 ^^^ (e1.toUInt32 <<< 8 ^^^ e0.toUInt32)) :
    d0 = e0 ∧ d1 = e1 ∧ d2 = e2 := by
  have small : ∀ c b : UInt8, (c.toUInt32 <<< 8 ^^^ b.toUInt32).toNat < 2 ^ 16 := by
    intro c b
    rw [UInt32.toNat_xor, toNat_shiftLeft_byte c (by decide)]
    apply Nat.xor_lt_two_pow
    · rw [Nat.shiftLeft_eq]
      exact Nat.mul_lt_mul_of_pos_right c.toNat_lt (Nat.two_pow_pos 8)
    · exact b.toNat_lt.trans (by decide)
  have values := congrArg UInt32.toNat same
  rw [UInt32.toNat_xor, UInt32.toNat_xor _ (_ ^^^ _), toNat_shiftLeft_byte d2 (by decide),
    toNat_shiftLeft_byte e2 (by decide)] at values
  obtain ⟨third, rest⟩ := shiftLeft_xor_inj (small d1 d0) (small e1 e0) values
  obtain ⟨first, second⟩ := xor_bytes_inj (UInt32.toNat_inj.mp rest)
  exact ⟨first, second, UInt8.toNat_inj.mp third⟩

theorem xor_cancel {h a b : UInt32} (same : h ^^^ a = h ^^^ b) : a = b := by
  refine xor_injective h ?_
  dsimp only
  rwa [UInt32.xor_comm, UInt32.xor_comm b]

/-- The bytes behind the last word are not lost either. -/
theorem genKeyBytes_tail {h : UInt32} {data data' : List UInt8}
    (length : data.length = data'.length)
    (short : data.length < 4) (same : genKeyBytes h data = genKeyBytes h data') : data = data' := by
  rcases data with _ | ⟨d0, _ | ⟨d1, _ | ⟨d2, _ | ⟨d3, data⟩⟩⟩⟩
  · exact (List.eq_nil_of_length_eq_zero length.symm).symm
  · obtain ⟨e0, rfl⟩ := List.length_eq_one_iff.mp length.symm
    have byte := congrArg UInt32.toNat (xor_cancel (mul_murmurM_injective same))
    rw [UInt8.toNat_inj.mp byte]
  · obtain ⟨e0, e1, rfl⟩ := List.length_eq_two.mp length.symm
    have bytes := mul_murmurM_injective same
    rw [UInt32.xor_assoc, UInt32.xor_assoc h] at bytes
    obtain ⟨rfl, rfl⟩ := xor_bytes_inj (xor_cancel bytes)
    rfl
  · obtain ⟨e0, e1, e2, rfl⟩ := List.length_eq_three.mp length.symm
    have bytes := mul_murmurM_injective same
    rw [UInt32.xor_assoc, UInt32.xor_assoc h, UInt32.xor_assoc, UInt32.xor_assoc h] at bytes
    obtain ⟨rfl, rfl, rfl⟩ := xor_three_bytes_inj (xor_cancel bytes)
    rfl
  · simp only [List.length_cons] at short
    omega

theorem exists_word {key : List UInt8} (long : 4 ≤ key.length) :
    ∃ d0 d1 d2 d3 data, key = d0 :: d1 :: d2 :: d3 :: data := by
  rcases key with _ | ⟨d0, _ | ⟨d1, _ | ⟨d2, _ | ⟨d3, data⟩⟩⟩⟩
  · simp at long
  · simp at long
  · simp at long
  · simp at long
  · exact ⟨d0, d1, d2, d3, data, rfl⟩

/-- Keys that differ within one word leave the loop with different states. -/
theorem genKeyBytes_ne {i : Nat} {key key' : List UInt8} (length : key.length = key'.length)
    (differ : key ≠ key') (only : ∀ j, key[j]? ≠ key'[j]? → j / 4 = i) (h : UInt32) :
    genKeyBytes h key ≠ genKeyBytes h key' := by
  induction i generalizing key key' h with
  | zero =>
      rcases Nat.lt_or_ge key.length 4 with short | long
      · exact fun same => differ (genKeyBytes_tail length short same)
      · obtain ⟨d0, d1, d2, d3, data, rfl⟩ := exists_word long
        obtain ⟨e0, e1, e2, e3, data', rfl⟩ := exists_word (length ▸ long)
        -- the bytes after the first word are the same, so the words differ
        have behind : data = data' := by
          refine List.ext_getElem? fun j => ?_
          by_contra other
          have place := only (j + 4) other
          omega
        subst behind
        intro same
        have word := genKeyRound_injective_word h (genKeyBytes_injective data same)
        obtain ⟨rfl, rfl, rfl, rfl⟩ := uint32At_inj word
        exact differ rfl
  | succ i induction =>
      rcases Nat.lt_or_ge key.length 4 with short | long
      · exact fun same => differ (genKeyBytes_tail length short same)
      · obtain ⟨d0, d1, d2, d3, data, rfl⟩ := exists_word long
        obtain ⟨e0, e1, e2, e3, data', rfl⟩ := exists_word (length ▸ long)
        have first : ∀ j < 4,
            (d0 :: d1 :: d2 :: d3 :: data)[j]? = (e0 :: e1 :: e2 :: e3 :: data')[j]? := by
          intro j below
          by_contra other
          have place := only j other
          omega
        obtain rfl : d0 = e0 := Option.some.inj (first 0 (by decide))
        obtain rfl : d1 = e1 := Option.some.inj (first 1 (by decide))
        obtain rfl : d2 = e2 := Option.some.inj (first 2 (by decide))
        obtain rfl : d3 = e3 := Option.some.inj (first 3 (by decide))
        rw [genKeyBytes, genKeyBytes]
        refine induction (by simpa using length) (fun same => differ (by rw [same])) ?_ _
        intro j other
        have place := only (j + 4) other
        omega

/-- Two keys of one length that differ within one word, or in the bytes behind the last one, have
different hashes. -/
theorem dict_gen_key_ne {key key' : List UInt8} (length : key.length = key'.length)
    (differ : key ≠ key') (i : Nat) (only : ∀ j, key[j]? ≠ key'[j]? → j / 4 = i) :
    dictGenKey key ≠ dictGenKey key' := by
  have shift₁₃ : Injective fun h : UInt32 => h ^^^ (h >>> 13) :=
    injective_of_toBitVec (fun _ => rfl) (xor_ushiftRight_injective (k := 13) (by decide))
  have shift₁₅ : Injective fun h : UInt32 => h ^^^ (h >>> 15) :=
    injective_of_toBitVec (fun _ => rfl) (xor_ushiftRight_injective (k := 15) (by decide))
  have mixed := shift₁₅.comp (mul_murmurM_injective.comp shift₁₃)
  unfold dictGenKey
  rw [← length]
  exact mixed.ne (genKeyBytes_ne length differ only _)

theorem dict_gen_key_ne_word :
    dictGenKey [0, 0, 0, 0, 1, 2, 3, 4, 5] ≠ dictGenKey [0, 0, 0, 0, 4, 3, 2, 1, 5] :=
  dict_gen_key_ne rfl (by decide) 1 (by
    intro j other
    rcases Nat.lt_or_ge j 9 with below | above
    · interval_cases j <;> simp at other ⊢
    · simp [above] at other)

/-! ## Strings -/

/-- A round of the loop of `dict_casestring_key`, on a letter that is small already. -/
def casestringRound (hash : UInt32) (c : UInt8) : UInt32 := ((hash <<< 5) + hash) + c.toUInt32

theorem dictCasestringKey_eq (key : List UInt8) :
    dictCasestringKey key = (key.map tolower).foldl casestringRound 5381 := by
  rw [List.foldl_map]
  rfl

theorem casestringRound_injective (c : UInt8) : Injective fun hash => casestringRound hash c := by
  have times : Injective fun hash : BitVec 32 => hash <<< 5 + hash := by
    simpa only [BitVec.add_comm] using add_shiftLeft_injective (w := 32) (k := 5) (by decide)
  exact injective_of_toBitVec (fun _ => rfl)
    ((add_left_injective c.toUInt32.toBitVec).comp times)

theorem casestringRound_ne {c c' : UInt8} (differ : c ≠ c') (hash : UInt32) :
    casestringRound hash c ≠ casestringRound hash c' := by
  intro same
  have letters := congrArg UInt32.toNat (UInt32.add_right_inj _ |>.mp same)
  exact differ (UInt8.toNat_inj.mp letters)

/-- Keys of one length that differ in no more than one letter have the same hash exactly when they
are the same up to letter case. -/
theorem dict_casestring_key_eq_iff {key key' : List UInt8} (length : key.length = key'.length)
    (i : Nat) (only : ∀ j, (key.map tolower)[j]? ≠ (key'.map tolower)[j]? → j = i) :
    dictCasestringKey key = dictCasestringKey key' ↔ key.map tolower = key'.map tolower := by
  rw [dictCasestringKey_eq, dictCasestringKey_eq]
  constructor
  · contrapose
    intro differ
    obtain ⟨front, c, c', back, split, split', distinct⟩ :=
      exists_split_of_ne (by simpa using length) differ only
    rw [split, split']
    exact foldl_ne casestringRound_injective front back (casestringRound_ne distinct _)
  · intro same
    rw [same]

theorem dict_casestring_key_eq_iff_letter :
    dictCasestringKey [65, 98] = dictCasestringKey [97, 99] ↔
      [65, 98].map tolower = [97, 99].map tolower :=
  dict_casestring_key_eq_iff rfl 1 (by
    intro j other
    rcases Nat.lt_or_ge j 2 with below | above
    · interval_cases j
      · exact (other (by decide)).elim
      · rfl
    · exact (other (by rw [List.getElem?_eq_none above, List.getElem?_eq_none above])).elim)

end Dictionary
end OstrichServer
