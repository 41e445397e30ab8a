import Atfs.Library.TableCrc

/-!
# The checksum of a file name (hashmap.c)

`crc32` runs the loop of a cyclic redundancy check over a table of 256 words. The words are not
those of a polynomial, not even of a linear map, and they do not keep names of one length apart that
differ in a single byte.
-/

namespace Atfs

open TableCrc

def crc32Tab : Array (BitVec 64) := #[
  0x00000000, 0x22b8b53e, 0x563e1597, 0x7e9b4481, 0x6ace6073, 0x244e1e9a, 0xd970b4b8, 0x7540103,
  0x0a392bdb, 0x79820eca, 0xeac07a4b, 0x5315b8b9, 0x1b7cb2ce, 0xdce2781a, 0x30ada1d9, 0xa185b334,
  0xaa397374, 0x1ebc7cb5, 0xda8ad740, 0xd32b029a, 0x25e6a405, 0x26ce7d0b, 0xb09d88cc, 0x21e31256,
  0x892a59c3, 0x4456ee55, 0xd92d991c, 0x66dd98a6, 0xb9556684, 0x545c9937, 0x26ed6802, 0xa302b353,
  0x4c1dc103, 0x7bc3d013, 0xa3a34bea, 0x1e7e0311, 0xbe68d5ec, 0x885ab038, 0x7da02a53, 0x168d0e09,
  0x6be3d49a, 0x89bb9162, 0x5c4db3b8, 0x55bda554, 0xa699e434, 0x455e5d24, 0x8cbe2247, 0x43e14d69,
  0x05a22896, 0x18521dbb, 0x51895509, 0x7c3073a0, 0x85b74c6d, 0x67d23b1e, 0xa7aace9d, 0x4442c9cd,
  0xb5554a0d, 0xcc775135, 0x68ac3b18, 0x143e6b6d, 0x36603b47, 0xb2bb5eb4, 0x9e328325, 0x834c3bc7,
  0x03eb4196, 0x8e4262ea, 0x71d6e395, 0x7c1872c3, 0x7749977, 0xde3a0160, 0x3bdb6da8, 0x1a0b26ce,
  0x029dd1eb, 0x7026d175, 0x3de099ba, 0x5c202cd8, 0x4d851b38, 0x4e5da262, 0x71137d7c, 0xd5b12344,
  0x89d20d56, 0xa54ccd7d, 0x47634121, 0x259b7abb, 0xee1cdcde, 0xa4927dab, 0x563c5552, 0x32509cbc,
  0x7bd7222b, 0x9aa38414, 0x0954cd91, 0xa9d78083, 0xca66c73e, 0x7cb066d9, 0x42359515, 0x8807ed17,
  0xe57ede72, 0x8eccc540, 0x10eecbed, 0x24385d60, 0x6744bb39, 0x603d90d7, 0x7dd7559e, 0xcc8537e4,
  0xb9ebc2ed, 0xb9cb2e51, 0x87ec5142, 0x909ad5c8, 0x4c7e4dca, 0x8e5a03a5, 0x6c92408b, 0xd2bc96d6,
  0x03e4c010, 0x96c8b389, 0xd3e6ee11, 0x3e249b39, 0x9dc8ae10, 0xc7028880, 0xeeb4b30d, 0x95391ea9,
  0x2b78e422, 0xda40eb75, 0xd94e778b, 0x85693639, 0x9ab72711, 0x35ca1a10, 0xee0c596e, 0xc9127eb4,
  0xe804b143, 0x2912de96, 0x8796ec35, 0x73a3b8c9, 0x2548eebe, 0x3978ba17, 0xa075c205, 0xd1db2b87,
  0x598e97e6, 0x70463c17, 0x447c7cda, 0x81cc848b, 0x27749db8, 0x4b3c2840, 0x1c2507e2, 0x100a2e3b,
  0xeb188a9d, 0x19bdaa68, 0x648dc8a6, 0xb4eb86d7, 0x5b78a416, 0xac01c537, 0xc93b3d70, 0xca889271,
  0x31a04a57, 0xac3aa6d0, 0x893235bd, 0x3163c414, 0x095153aa, 0x4a55dd04, 0x385b99b5, 0xbec81b00,
  0x3e722d83, 0x3a1891e0, 0xd9491932, 0x67944a8a, 0x95b2cb40, 0xcdc32651, 0x0721a1da, 0x1c65ca32,
  0x874ded28, 0x8c2c62eb, 0x317763, 0xdee8b700, 0xabc86e21, 0xa17d3e2e, 0xc51dc849, 0xa027318b,
  0xb4cb602b, 0x7b520594, 0x1cc6cc2a, 0xda0721d2, 0x4b106950, 0x714795cb, 0x17321388, 0x0657d6de,
  0xcd48a123, 0x4469e565, 0xbeca3159, 0xd1e5a36b, 0x29a5b67b, 0x2cca241d, 0xb4a16d70, 0xba78e81a,
  0x664e9567, 0xa4c49eb2, 0x50b2cdc7, 0x4d8e3007, 0xe294740a, 0x8666c014, 0xda57e7be, 0x123c9ea7,
  0x02a0e0b9, 0x99b44ed2, 0x1e8d7b07, 0x1bec53a3, 0xca002003, 0x13a3e813, 0xd11c05c9, 0xdad98230,
  0x8b61b0eb, 0x3a0ce21d, 0x43cb5967, 0xd7e98919, 0x82345a39, 0xa0ce406b, 0x5569aa8c, 0x7dd63457,
  0xd891632e, 0xdd76c8e0, 0x32465964, 0xecb6a1c1, 0xb8850429, 0x3a810468, 0x87959abe, 0x61a683b5,
  0x557aaa35, 0xd9ed6be3, 0xee8ab237, 0x1eee39ea, 0x35d359d2, 0xe9a8d518, 0x9e5d193e, 0xd20b6b12,
  0xa0c348ba, 0x457b6de1, 0x120d3da4, 0x744924a8, 0x991d9840, 0x6ed53ac7, 0x99073a28, 0x0cdc9a5a,
  0x9939d57e, 0x0b60ce67, 0xcdc67080, 0x8401d5b7, 0x9d24e838, 0x4258e2d8, 0xa69c22e1, 0x758b0b42,
  0x53354752, 0x066ac623, 0x58194cbe, 0x94853db8, 0xacb43c87, 0x663a25d9, 0xa974485d, 0xb299e913]

def crc32Step (crc32val : BitVec 64) (c : BitVec 8) : BitVec 64 :=
  crc32Tab[((crc32val ^^^ c.setWidth 64) &&& 0xff).toNat]! ^^^ crc32val >>> 8

/-- The loop over the first `len` bytes of `s`. -/
def crc32 (s : List (BitVec 8)) (len : Nat) : BitVec 64 := (s.take len).foldl crc32Step 0

/-! ## As a checksum by a table -/

/-- The table as a function of a byte. -/
def crc32Word (i : BitVec 8) : BitVec 64 := crc32Tab[i.toNat]!

/-- Masking picks the low byte. -/
theorem toNat_and_255 (c : BitVec 64) (b : BitVec 8) :
    ((c ^^^ b.setWidth 64) &&& 0xff).toNat = (c.setWidth 8 ^^^ b).toNat := by
  have hb := b.isLt
  rw [BitVec.toNat_and, show (0xff : BitVec 64).toNat = 2 ^ 8 - 1 from rfl,
    Nat.and_two_pow_sub_one_eq_mod, BitVec.toNat_xor, BitVec.toNat_xor, Nat.xor_mod_two_pow,
    BitVec.toNat_setWidth, BitVec.toNat_setWidth, Nat.mod_eq_of_lt (show b.toNat < 2 ^ 64 by omega),
    Nat.mod_eq_of_lt hb]

theorem crc32_eq (s : List (BitVec 8)) (len : Nat) :
    crc32 s len = run crc32Word 0#64 (s.take len) := by
  have hstep : crc32Step = step crc32Word := by
    funext c b
    rw [crc32Step, step, crc32Word, toNat_and_255]
  rw [crc32, run, hstep]
  rfl

/-! ## Linearity -/

/-- `crc32` is linear on the strings `a` and `b`. -/
def Crc32Linear (a b : List (BitVec 8)) : Prop :=
  crc32 (xorBytes a b) a.length = crc32 a a.length ^^^ crc32 b b.length

theorem crc32Word_zero : crc32Word 0 = 0 := by decide +kernel

/-- The words 1, 2 and 3 of the table. -/
theorem crc32Word_not_additive : ¬ Additive crc32Word := by
  have hwords : crc32Word (1 ^^^ 2) ≠ crc32Word 1 ^^^ crc32Word 2 := by decide +kernel
  exact fun h => hwords (h 1 2)

theorem crc32Linear_iff_run {a b : List (BitVec 8)} (h : a.length = b.length) : Crc32Linear a b ↔
    run crc32Word 0#64 (xorBytes a b) = run crc32Word 0#64 a ^^^ run crc32Word 0#64 b := by
  rw [Crc32Linear, crc32_eq, crc32_eq, crc32_eq, List.take_length, List.take_length,
    List.take_of_length_le (Nat.le_of_eq (length_xorBytes h))]

/-- On the strings of one length `crc32` is linear only if they are empty. -/
theorem crc32Linear_iff (n : Nat) :
    (∀ a b, a.length = n → b.length = n → Crc32Linear a b) ↔ n = 0 := by
  constructor
  · intro h
    cases n with
    | zero => rfl
    | succ n =>
      have hadd : Additive crc32Word := (run_xor_iff_additive crc32Word_zero n).1 fun a b ha hb =>
        (crc32Linear_iff_run (ha.trans hb.symm)).1 (h a b ha hb)
      exact absurd hadd crc32Word_not_additive
  · rintro rfl a b ha hb
    obtain rfl := List.length_eq_zero_iff.1 ha
    obtain rfl := List.length_eq_zero_iff.1 hb
    rfl

/-- Not even two names of five characters that differ in the first one are told apart. -/
theorem crc32_not_linear :
    ¬ Crc32Linear [1] [2] ∧
      crc32 [0x21, 0x6e, 0x42, 0x6f, 0x2d] 5 = crc32 [0x27, 0x6e, 0x42, 0x6f, 0x2d] 5 := by
  constructor
  · rw [Crc32Linear]
    decide +kernel
  · decide +kernel

end Atfs
