import Atfs.Library.ByteMemory
import Atfs.Library.LinkedChain
import Mathlib.Data.List.Perm.Subperm
import Mathlib.Tactic.NormNum

/-!
# Memory layout

The NVM region is one byte memory, addressed relative to `g_nvm_base_addr`, so
an offset stored in the region and the address it denotes are the same number.
Structures are given by the offsets and widths of the fields the code uses, as
laid out on x86-64. Behind every page body of 4096 bytes stands its 40-byte
`list_node_t`, so pages are 4136 bytes apart.
-/

namespace Atfs

open ByteMemory LinkedChain

/-! ## Constants -/

def offsetNull : Nat := 0xffffffffffffffff

def pageShift : Nat := 12
def pageSize : Nat := 1 <<< pageShift

/-- `~(PAGE_SIZE - 1)` as a 64-bit word. -/
def pageMask : Nat := 2 ^ 64 - pageSize

/-- `~PAGE_MASK` as a 64-bit word. -/
def pageOffsetMask : Nat := pageSize - 1

def sizeofListNode : Nat := 40
def sizeofPageList : Nat := 56
def sizeofFileLogEntry : Nat := 48

def pageListStart : Nat := 12
def freeSpaceStart : Nat := 28

def nvmMmapSize : Nat := 1 <<< 34
def atfsPageSize : Nat := pageSize + sizeofListNode
def nvmFreeNumPages : Nat := (nvmMmapSize - freeSpaceStart * pageSize) / atfsPageSize

def fillLocalPageListMax : Nat := 512
def maxNumPagePerEntry : Nat := 64
def writeLogPerAlloc : Nat := 1

theorem offsetNull_eq : offsetNull = 18446744073709551615 := rfl
theorem pageSize_eq : pageSize = 4096 := rfl
theorem atfsPageSize_eq : atfsPageSize = 4136 := rfl
theorem nvmFreeNumPages_eq : nvmFreeNumPages = 4153712 := rfl

/-! ## Machine words -/

/-- Sum of two `u64`. -/
def addU64 (a b : Nat) : Nat := (a + b) % 2 ^ 64

/-- Difference of two `u64`. -/
def subU64 (a b : Nat) : Nat := (a + (2 ^ 64 - b % 2 ^ 64)) % 2 ^ 64

/-- `n - 1` for a `u32`. -/
def decU32 (n : Nat) : Nat := (n + (2 ^ 32 - 1)) % 2 ^ 32

theorem addU64_lt (a b : Nat) : addU64 a b < 2 ^ 64 := Nat.mod_lt _ (by decide)

theorem subU64_lt (a b : Nat) : subU64 a b < 2 ^ 64 := Nat.mod_lt _ (by decide)

theorem addU64_of_lt {a b : Nat} (h : a + b < 2 ^ 64) : addU64 a b = a + b := Nat.mod_eq_of_lt h

theorem subU64_of_le {a b : Nat} (h : b ≤ a) (ha : a < 2 ^ 64) : subU64 a b = a - b := by
  unfold subU64
  omega

theorem decU32_of_pos {n : Nat} (h : 0 < n) (hn : n ≤ 2 ^ 32) : decU32 n = n - 1 := by
  unfold decU32
  omega

theorem and_pageOffsetMask (x : Nat) : x &&& pageOffsetMask = x % 4096 :=
  Nat.and_two_pow_sub_one_eq_mod x 12

/-- Masking with `PAGE_MASK` rounds down to a page boundary. -/
theorem and_pageMask {x : Nat} (hx : x < 2 ^ 64) : x &&& pageMask = x / 4096 * 4096 := by
  have mask : pageMask = (2 ^ 52 - 1) <<< 12 := by decide
  have round : x / 4096 * 4096 = (x >>> 12) <<< 12 := by
    rw [Nat.shiftRight_eq_div_pow, Nat.shiftLeft_eq]
  rw [mask, round]
  refine Nat.eq_of_testBit_eq fun i => ?_
  simp only [Nat.testBit_and, Nat.testBit_shiftLeft, Nat.testBit_two_pow_sub_one,
    Nat.testBit_shiftRight]
  by_cases h : 12 ≤ i
  · by_cases hi : i < 64
    · simp [h, show i - 12 < 52 by omega]
    · have hlt : x < 2 ^ i := hx.trans_le (Nat.pow_le_pow_right (by omega) (by omega))
      simp [h, Nat.testBit_lt_two_pow hlt]
  · simp [h]

/-! ## Structures -/

namespace ListNode

@[simps] def nextOffset : Field 40 := ⟨0, 8, by decide⟩
@[simps] def offset : Field 40 := ⟨8, 8, by decide⟩
@[simps] def objCnt : Field 40 := ⟨16, 4, by decide⟩
@[simps] def invalidCnt : Field 40 := ⟨20, 4, by decide⟩
@[simps] def pagesCnt : Field 40 := ⟨24, 4, by decide⟩
@[simps] def invalidPages : Field 40 := ⟨28, 4, by decide⟩
@[simps] def logEntry : Field 40 := ⟨32, 8, by decide⟩

end ListNode

namespace PageList

@[simps] def head : Field 56 := ⟨0, 8, by decide⟩
@[simps] def count : Field 56 := ⟨8, 8, by decide⟩

/-- The `pthread_mutex_t` of the list. -/
@[simps] def mutex : Field 56 := ⟨16, 40, by decide⟩

end PageList

namespace FileLogEntry

@[simps] def data : Field 48 := ⟨0, 8, by decide⟩
@[simps] def fileSize : Field 48 := ⟨8, 8, by decide⟩
@[simps] def startWriteOff : Field 48 := ⟨16, 8, by decide⟩
@[simps] def endWriteOff : Field 48 := ⟨24, 8, by decide⟩
@[simps] def numPages : Field 48 := ⟨32, 4, by decide⟩
@[simps] def invalidPages : Field 48 := ⟨36, 4, by decide⟩
@[simps] def bitmap : Field 48 := ⟨40, 8, by decide⟩

end FileLogEntry

namespace AtfsInode

@[simps] def valid : Field 216 := ⟨0, 1, by decide⟩
@[simps] def deleted : Field 216 := ⟨1, 1, by decide⟩
@[simps] def iSize : Field 216 := ⟨8, 8, by decide⟩
@[simps] def fd : Field 216 := ⟨52, 4, by decide⟩
@[simps] def logHead : Field 216 := ⟨56, 8, by decide⟩
@[simps] def logTail : Field 216 := ⟨64, 8, by decide⟩
@[simps] def fileOff : Field 216 := ⟨72, 8, by decide⟩

/-- The `pthread_mutex_t` of the inode. -/
@[simps] def mutex : Field 216 := ⟨176, 40, by decide⟩

end AtfsInode

def sizeofAtfsInode : Nat := 216

/-- `pthread_mutex_init` with default attributes zeroes the mutex. -/
def pthreadMutexInit (m : Memory) (mutex : Nat) : Memory := fill m mutex 40 0

/-! ## Addresses (addr.c) -/

def getPageListBaseAddr : Nat := pageListStart * pageSize

def getFreeSpaceBaseAddr : Nat := freeSpaceStart * pageSize

def getLocalPageListAddr (num : Nat) : Nat := pageListStart * pageSize + sizeofPageList * num

def getNvmPageNodeAddr (offset : Nat) : Nat := addU64 offset pageSize

def getNvmNode2pageAddr (addr : Nat) : Nat := subU64 addr pageSize

def getNvmPage2nodeAddr (addr : Nat) : Nat := addU64 addr pageSize

def getNvmPageOff2freeSpace (offset : Nat) : Nat := subU64 offset (freeSpaceStart * pageSize)

theorem getPageListBaseAddr_eq : getPageListBaseAddr = 49152 := rfl
theorem getFreeSpaceBaseAddr_eq : getFreeSpaceBaseAddr = 114688 := rfl
theorem getLocalPageListAddr_eq (num : Nat) : getLocalPageListAddr num = 49152 + 56 * num := rfl

/-! ## Pages -/

/-- The offset of page number `i` of the free space. -/
@[irreducible] def pageOff (i : Nat) : Nat := getFreeSpaceBaseAddr + i * atfsPageSize

theorem pageOff_eq (i : Nat) : pageOff i = 114688 + i * 4136 := by
  unfold pageOff
  rfl

theorem pageOff_injective : Function.Injective pageOff := by
  intro i j h
  rw [pageOff_eq, pageOff_eq] at h
  omega

/-- `p` is the offset of one of the pages of the free space. -/
def IsPage (p : Nat) : Prop := ∃ i, i < nvmFreeNumPages ∧ p = pageOff i

theorem isPage_pageOff {k : Nat} (hk : k < 4153712) : IsPage (pageOff k) :=
  ⟨k, by rw [nvmFreeNumPages_eq]; exact hk, rfl⟩

namespace IsPage

variable {p q : Nat}

theorem bounds (h : IsPage p) : 114688 ≤ p ∧ p + 4136 ≤ 2 ^ 34 := by
  obtain ⟨i, hi, rfl⟩ := h
  rw [nvmFreeNumPages_eq] at hi
  rw [pageOff_eq]
  omega

theorem ne_offsetNull (h : IsPage p) : p ≠ offsetNull := by
  have := h.bounds
  rw [offsetNull_eq]
  omega

/-- Distinct pages, bodies and nodes together, do not overlap. -/
theorem apart (hp : IsPage p) (hq : IsPage q) (h : p ≠ q) : p + 4136 ≤ q ∨ q + 4136 ≤ p := by
  obtain ⟨i, -, rfl⟩ := hp
  obtain ⟨j, -, rfl⟩ := hq
  rw [pageOff_eq, pageOff_eq] at *
  omega

theorem eq_or_apart (hp : IsPage p) (hq : IsPage q) : p = q ∨ p + 4136 ≤ q ∨ q + 4136 ≤ p :=
  or_iff_not_imp_left.2 (hp.apart hq)

/-- The page an address lies in is found by rounding down. -/
theorem eq_of_mem (hp : IsPage p) {a : Nat} (h : p ≤ a) (h' : a < p + 4136) :
    114688 + (a - 114688) / 4136 * 4136 = p := by
  obtain ⟨i, -, rfl⟩ := hp
  rw [pageOff_eq] at *
  omega

theorem getNvmPageNodeAddr_eq (h : IsPage p) : getNvmPageNodeAddr p = p + 4096 := by
  have := h.bounds
  exact addU64_of_lt (by rw [pageSize_eq]; omega)

theorem getNvmPage2nodeAddr_eq (h : IsPage p) : getNvmPage2nodeAddr p = p + 4096 :=
  h.getNvmPageNodeAddr_eq

theorem getNvmNode2pageAddr_eq (h : IsPage p) : getNvmNode2pageAddr (p + 4096) = p := by
  have := h.bounds
  rw [getNvmNode2pageAddr, subU64_of_le (by rw [pageSize_eq]; omega) (by omega), pageSize_eq]
  omega

/-- Writing the node of one page keeps the node of every other. -/
theorem get_set_node (hp : IsPage p) (hq : IsPage q) (h : p ≠ q) (f g : Field 40) (m : Memory)
    (v : Nat) : f.get (g.set m (q + 4096) v) (p + 4096) = f.get m (p + 4096) :=
  Field.get_set_of_apart f g m (by have := hp.apart hq h; omega)

/-- Distinct pages are at most as many as the free space holds. -/
theorem length_le {l : List Nat} (hl : ∀ p ∈ l, IsPage p) (hn : l.Nodup) :
    l.length ≤ nvmFreeNumPages := by
  have sub : l ⊆ (List.range nvmFreeNumPages).map pageOff := by
    intro p hp
    obtain ⟨i, hi, rfl⟩ := hl p hp
    exact List.mem_map.2 ⟨i, List.mem_range.2 hi, rfl⟩
  simpa using (hn.subperm sub).length_le

end IsPage

/-- The page linked behind page `p`. -/
def pageLink (m : Memory) (p : Nat) : Nat := ListNode.nextOffset.get m (getNvmPageNodeAddr p)

theorem pageLink_lt (m : Memory) (p : Nat) : pageLink m p < 2 ^ 64 :=
  ListNode.nextOffset.get_lt m _

theorem IsPage.pageLink_eq {p : Nat} (h : IsPage p) (m : Memory) :
    pageLink m p = ListNode.nextOffset.get m (p + 4096) := by
  rw [pageLink, h.getNvmPageNodeAddr_eq]

/-- The link of a page is decided by the first eight bytes of its node. -/
theorem IsPage.pageLink_congr {p : Nat} (hp : IsPage p) {m m' : Memory}
    (h : Set.EqOn m m' (Set.Ico (p + 4096) (p + 4104))) : pageLink m p = pageLink m' p := by
  rw [hp.pageLink_eq, hp.pageLink_eq]
  exact Field.get_congr fun a ha => h (by simpa [Field.bytes, Nat.add_assoc] using ha)

/-- Setting the link of one page updates the link function at that page. -/
theorem IsPage.pageLink_set {p q v : Nat} (hp : IsPage p) (hq : IsPage q) (hv : v < 2 ^ 64)
    (m : Memory) : pageLink (ListNode.nextOffset.set m (q + 4096) v) p =
      Function.update (pageLink m) q v p := by
  by_cases h : p = q
  · subst h
    rw [Function.update_self, hp.pageLink_eq]
    exact Field.get_set_self_of_lt _ _ hv
  · rw [Function.update_of_ne h, hp.pageLink_eq, hp.pageLink_eq]
    exact hp.get_set_node hq h _ _ m v

/-- The other fields of a node stand behind its link. -/
theorem IsPage.pageLink_set_field {p q : Nat} (hp : IsPage p) (hq : IsPage q) (g : Field 40)
    (hg : 8 ≤ g.off) (m : Memory) (v : Nat) : pageLink (g.set m (q + 4096) v) p = pageLink m p := by
  rw [hp.pageLink_eq, hp.pageLink_eq]
  by_cases h : p = q
  · subst h
    exact Field.get_set_of_disjoint _ _ _ (.inl (by simp; omega))
  · exact hp.get_set_node hq h _ _ m v

end Atfs
