import Mathlib.Data.Nat.Prime.Basic
import Mathlib.Data.Nat.ModEq
import Mathlib.Tactic.Common

/-!
# Mixing steps on machine words

The two steps integer hashes are built of, on words of any width: adding a shifted copy, which is a
product with an odd number, and combining with a copy shifted to the right. Both lose nothing.
-/

namespace WordMix

variable {w s : Nat}

/-- `x += x << s` -/
def addShift (s : Nat) (x : BitVec w) : BitVec w := x + x <<< s

/-- `x ^= x >> s` -/
def xorShift (s : Nat) (x : BitVec w) : BitVec w := x ^^^ x >>> s

/-- Adding a shifted copy is a product. -/
theorem toNat_addShift (x : BitVec w) : (addShift s x).toNat = x.toNat * (1 + 2 ^ s) % 2 ^ w := by
  rw [addShift, BitVec.toNat_add, BitVec.toNat_shiftLeft, Nat.shiftLeft_eq,
    Nat.add_mod_mod, mul_add, mul_one]

theorem addShift_injective (hs : 0 < s) : Function.Injective (addShift (w := w) s) := by
  intro x y h
  have hodd : Nat.Coprime (2 ^ w) (1 + 2 ^ s) := by
    obtain ⟨k, rfl⟩ := Nat.exists_eq_succ_of_ne_zero hs.ne'
    refine Nat.Coprime.pow_left w (Nat.coprime_two_left.2 ?_)
    rw [Nat.pow_succ, Nat.odd_iff]
    omega
  have hmod : x.toNat * (1 + 2 ^ s) ≡ y.toNat * (1 + 2 ^ s) [MOD 2 ^ w] := by
    have hnat := congrArg BitVec.toNat h
    rwa [toNat_addShift, toNat_addShift] at hnat
  apply BitVec.eq_of_toNat_eq
  have hxy := hmod.cancel_right_of_coprime hodd
  rwa [Nat.ModEq, Nat.mod_eq_of_lt x.isLt, Nat.mod_eq_of_lt y.isLt] at hxy

/-- A word that equals a shorter copy of itself is zero. -/
theorem eq_zero_of_eq_ushiftRight {d : BitVec w} (hs : 0 < s) (h : d = d >>> s) : d = 0#w := by
  apply BitVec.eq_of_toNat_eq
  have hnat := congrArg BitVec.toNat h
  rw [BitVec.toNat_ushiftRight, Nat.shiftRight_eq_div_pow] at hnat
  rw [BitVec.toNat_ofNat, Nat.zero_mod]
  by_contra hne
  exact (Nat.div_lt_self (Nat.pos_of_ne_zero hne) (Nat.one_lt_two_pow hs.ne')).ne hnat.symm

theorem xorShift_injective (hs : 0 < s) : Function.Injective (xorShift (w := w) s) := by
  intro x y h
  rw [xorShift, xorShift] at h
  have hd : x ^^^ y = (x ^^^ y) >>> s := by
    rw [BitVec.ushiftRight_xor_distrib]
    calc x ^^^ y = x ^^^ (x >>> s ^^^ x >>> s) ^^^ y := by simp
      _ = (y ^^^ y >>> s) ^^^ x >>> s ^^^ y := by rw [← BitVec.xor_assoc, h]
      _ = (y ^^^ y) ^^^ (x >>> s ^^^ y >>> s) := by ac_rfl
      _ = x >>> s ^^^ y >>> s := by simp
  have hzero := eq_zero_of_eq_ushiftRight hs hd
  exact BitVec.xor_eq_zero_iff.1 hzero

end WordMix
