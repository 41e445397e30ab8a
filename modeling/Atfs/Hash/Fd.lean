import Atfs.Hash.Crc
import Atfs.Library.WordMix
import Atfs.Super.Recency
import Mathlib.Data.Set.Card

/-!
# File descriptors (hashmap.c)

The descriptor of a file is a hash of its name: the checksum of the name is mixed in eight steps
that lose nothing, and what is left after dropping three bits is multiplied into the 31 bits of a
descriptor. So the descriptors are the multiples of 4, each of eight checksums.
-/

namespace Atfs

open WordMix

def hashmapBits : Nat := 32

/-- `(1UL << (HASHMAP_BITS - 1)) - 1` -/
def hashmapMask : BitVec 64 := 1 <<< (hashmapBits - 1) - 1

/-- The steps that mix the key. -/
def mixKey (key : BitVec 32) : BitVec 32 :=
  let key := key + key <<< 12
  let key := key ^^^ key >>> 22
  let key := key + key <<< 4
  let key := key ^^^ key >>> 9
  let key := key + key <<< 10
  let key := key ^^^ key >>> 2
  let key := key + key <<< 7
  key ^^^ key >>> 12

/-- What `hashmap_hash_s32` makes of the mixed key. The product is one of 64-bit words, of which the
key takes the low 32 bits; what is returned is an `s32`. -/
def foldKey (key : BitVec 32) : Int :=
  let key : BitVec 32 := ((key >>> 3).setWidth 64 * 6364247124#64).setWidth 32
  ((key.setWidth 64 &&& hashmapMask).setWidth 32).toInt

/-- `hashmap_hash_s32` as a function of the key. -/
def hashKey (key : BitVec 32) : Int := foldKey (mixKey key)

/-- `hashmap_hash_s32` of the bytes of a string; `crc32` takes its length as an `unsigned int`. -/
def hashmapHashS32 (keystring : List (BitVec 8)) : Int :=
  hashKey ((crc32 keystring (keystring.length % 2 ^ 32)).setWidth 32)

/-! ## The steps that mix -/

theorem mixKey_eq : mixKey = xorShift 12 ∘ addShift 7 ∘ xorShift 2 ∘ addShift 10 ∘ xorShift 9 ∘
    addShift 4 ∘ xorShift 22 ∘ addShift 12 := rfl

theorem mixKey_injective : Function.Injective mixKey := by
  rw [mixKey_eq]
  have add {s : Nat} (hs : 0 < s) : Function.Injective (addShift (w := 32) s) :=
    addShift_injective hs
  have xor {s : Nat} (hs : 0 < s) : Function.Injective (xorShift (w := 32) s) :=
    xorShift_injective hs
  refine (xor ?_).comp ((add ?_).comp ((xor ?_).comp ((add ?_).comp ((xor ?_).comp ((add ?_).comp
    ((xor ?_).comp (add ?_))))))) <;> decide

theorem mixKey_bijective : Function.Bijective mixKey := by
  have hfin : Finite (BitVec 32) :=
    Finite.of_injective BitVec.toFin fun _ _ h => BitVec.eq_of_toFin_eq h
  exact Finite.injective_iff_bijective.1 mixKey_injective

/-! ## The fold -/

/-- What the product makes of a quotient: the constant is four times an odd number. -/
def foldQuotient (q : Nat) : Nat := q * 1591061781 % 2 ^ 29

theorem foldQuotient_lt (q : Nat) : foldQuotient q < 2 ^ 29 := Nat.mod_lt _ (by decide)

/-- The quotients are permuted by the odd factor. -/
theorem foldQuotient_inj {x y : Nat} (hx : x < 2 ^ 29) (hy : y < 2 ^ 29)
    (h : foldQuotient x = foldQuotient y) : x = y := by
  have hmod : x ≡ y [MOD 2 ^ 29] := Nat.ModEq.cancel_right_of_coprime (by decide) h
  rwa [Nat.ModEq, Nat.mod_eq_of_lt hx, Nat.mod_eq_of_lt hy] at hmod

/-- 69417533 is the inverse of the odd factor. -/
theorem foldQuotient_surj {n : Nat} (hn : n < 2 ^ 29) : ∃ q < 2 ^ 29, foldQuotient q = n := by
  refine ⟨n * 69417533 % 2 ^ 29, Nat.mod_lt _ (by decide), ?_⟩
  rw [foldQuotient, Nat.mod_mul_mod, mul_assoc, Nat.mul_mod,
    show 69417533 * 1591061781 % 2 ^ 29 = 1 by decide, mul_one, Nat.mod_mod, Nat.mod_eq_of_lt hn]

theorem foldKey_eq (key : BitVec 32) : foldKey key = 4 * (foldQuotient (key.toNat / 8) : Int) := by
  have hkey := key.isLt
  have hmask : hashmapMask.toNat = 2 ^ 31 - 1 := by decide
  have hprod : ((key >>> 3).setWidth 64 * 6364247124#64).toNat =
      4 * (key.toNat / 8 * 1591061781) := by
    rw [BitVec.toNat_mul, BitVec.toNat_setWidth, BitVec.toNat_ushiftRight,
      Nat.shiftRight_eq_div_pow, BitVec.toNat_ofNat]
    omega
  have hnat : (((((key >>> 3).setWidth 64 * 6364247124#64).setWidth 32).setWidth 64 &&&
      hashmapMask).setWidth 32).toNat = 4 * foldQuotient (key.toNat / 8) := by
    rw [BitVec.toNat_setWidth, BitVec.toNat_and, hmask, Nat.and_two_pow_sub_one_eq_mod,
      BitVec.toNat_setWidth, BitVec.toNat_setWidth, hprod, foldQuotient]
    generalize key.toNat / 8 * 1591061781 = n
    omega
  have hlt := foldQuotient_lt (key.toNat / 8)
  rw [foldKey, BitVec.toInt_eq_toNat_of_lt (by rw [hnat]; omega), hnat]
  omega

theorem toNat_quotient_lt (k : BitVec 32) : k.toNat / 8 < 2 ^ 29 := by
  have := k.isLt
  omega

theorem foldKey_eq_iff {k k' : BitVec 32} : foldKey k = foldKey k' ↔ k >>> 3 = k' >>> 3 := by
  rw [foldKey_eq, foldKey_eq, ← BitVec.toNat_inj, BitVec.toNat_ushiftRight,
    BitVec.toNat_ushiftRight, Nat.shiftRight_eq_div_pow, Nat.shiftRight_eq_div_pow,
    show 2 ^ 3 = 8 from rfl]
  constructor
  · intro h
    exact foldQuotient_inj (toNat_quotient_lt k) (toNat_quotient_lt k') (by omega)
  · intro h
    rw [h]

theorem foldKey_range (key : BitVec 32) :
    0 ≤ foldKey key ∧ foldKey key < 2 ^ 31 ∧ 4 ∣ foldKey key := by
  rw [foldKey_eq]
  have := foldQuotient_lt (key.toNat / 8)
  refine ⟨by omega, by omega, Int.dvd_mul_right _ _⟩

/-- The words with the quotient `q` by 8. -/
theorem ncard_quotient {q : Nat} (hq : q < 2 ^ 29) :
    {k : BitVec 32 | k.toNat / 8 = q}.ncard = 8 := by
  have himage : {k : BitVec 32 | k.toNat / 8 = q} =
      (fun j => BitVec.ofNat 32 (8 * q + j)) '' (Finset.range 8 : Set Nat) := by
    ext k
    have hk := k.isLt
    rw [Set.mem_ofPred_eq, Set.mem_image, Finset.coe_range]
    constructor
    · intro h
      refine ⟨k.toNat % 8, Nat.mod_lt _ (by decide), ?_⟩
      apply BitVec.eq_of_toNat_eq
      rw [BitVec.toNat_ofNat]
      omega
    · rintro ⟨j, hj, rfl⟩
      rw [Set.mem_Iio] at hj
      rw [BitVec.toNat_ofNat]
      omega
  rw [himage, Set.InjOn.ncard_image, Set.ncard_coe_finset, Finset.card_range]
  intro i hi j hj h
  rw [Finset.coe_range, Set.mem_Iio] at hi hj
  have hnat := congrArg BitVec.toNat h
  rw [BitVec.toNat_ofNat, BitVec.toNat_ofNat] at hnat
  omega

/-- Every multiple of 4 below `2 ^ 31` is the fold of eight words. -/
theorem ncard_foldKey {fd : Int} (h0 : 0 ≤ fd) (hlt : fd < 2 ^ 31) (hdvd : 4 ∣ fd) :
    {k | foldKey k = fd}.ncard = 8 := by
  obtain ⟨v, rfl⟩ := hdvd
  obtain ⟨n, rfl⟩ := Int.eq_ofNat_of_zero_le (show 0 ≤ v by omega)
  obtain ⟨q, hq, rfl⟩ := foldQuotient_surj (show n < 2 ^ 29 by omega)
  have hset : {k | foldKey k = 4 * (foldQuotient q : Int)} = {k : BitVec 32 | k.toNat / 8 = q} := by
    ext k
    rw [Set.mem_ofPred_eq, Set.mem_ofPred_eq, foldKey_eq]
    constructor
    · intro h
      exact foldQuotient_inj (toNat_quotient_lt k) hq (by omega)
    · intro h
      rw [h]
  rw [hset, ncard_quotient hq]

/-! ## The descriptors -/

/-- The descriptors of files: the mixing loses nothing and the fold three bits, every multiple of 4
below `2 ^ 31` is the descriptor of eight keys, and no name has an error code as its descriptor. -/
theorem hashmapHashS32_spec :
    Function.Bijective mixKey ∧
      (∀ k k', hashKey k = hashKey k' ↔ mixKey k >>> 3 = mixKey k' >>> 3) ∧
      (∀ k, 0 ≤ hashKey k ∧ hashKey k < 2 ^ 31 ∧ 4 ∣ hashKey k) ∧
      (∀ fd : Int, 0 ≤ fd → fd < 2 ^ 31 → 4 ∣ fd → {k | hashKey k = fd}.ncard = 8) ∧
      ∀ name, hashmapHashS32 name ≠ InodeList.eexist ∧
      hashmapHashS32 name ≠ InodeList.inodeFailed := by
  refine ⟨mixKey_bijective, fun _ _ => foldKey_eq_iff, fun _ => foldKey_range _, ?_, fun name => ?_⟩
  · intro fd h0 hlt hdvd
    calc {k | hashKey k = fd}.ncard = (Set.preimage mixKey {k | foldKey k = fd}).ncard := rfl
      _ = {k | foldKey k = fd}.ncard :=
        Set.ncard_preimage_of_injective_subset_range mixKey_injective fun k _ =>
          mixKey_bijective.2 k
      _ = 8 := ncard_foldKey h0 hlt hdvd
  · obtain ⟨h0, -, hdvd⟩ : 0 ≤ hashmapHashS32 name ∧ hashmapHashS32 name < 2 ^ 31 ∧
        4 ∣ hashmapHashS32 name := foldKey_range _
    rw [InodeList.eexist, InodeList.inodeFailed]
    omega

theorem hashmapHashS32_spec_sample : {k | hashKey k = 20}.ncard = 8 :=
  hashmapHashS32_spec.2.2.2.1 20 (by decide) (by decide) (by decide)

end Atfs
