import Atfs.Allocator.Refill

/-!
# Regions with given lists

`Image.mem` lays out a region byte by byte from its heads, counts and links.
`freeImage` is the family used for concrete runs: `G` pages on the global list and
`L` on each local list, the rest of the free space in the hands of the caller.
-/

namespace Atfs

open ByteMemory LinkedChain

/-- The parts of a region: headers by list index, links and bodies by page number. -/
structure Image where
  head : Nat → Nat
  count : Nat → Nat
  next : Nat → Nat
  body : Nat → Nat → UInt8

def wordByte (v j : Nat) : UInt8 := UInt8.ofNat (v / 256 ^ j)

/-- The bytes of the page-list table and of the free space; zero elsewhere. -/
def Image.mem (I : Image) : Memory := fun a =>
  if a < 49152 then 0
  else if a < 114688 then
    let i := (a - 49152) / 56
    let o := (a - 49152) % 56
    if o < 8 then wordByte (I.head i) o
    else if o < 16 then wordByte (I.count i) (o - 8)
    else 0
  else
    let k := (a - 114688) / 4136
    let o := (a - 114688) % 4136
    if o < 4096 then I.body k o
    else if o < 4104 then wordByte (I.next k) (o - 4096)
    else if o < 4112 then wordByte (pageOff k) (o - 4104)
    else 0

namespace Image

variable (I : Image)

/-- The byte at position `o` of the header of list `i`. -/
theorem mem_header {i o : Nat} (hi : i ≤ gCpuNums) (ho : o < 56) :
    I.mem (getLocalPageListAddr i + o) = if o < 8 then wordByte (I.head i) o
      else if o < 16 then wordByte (I.count i) (o - 8) else 0 := by
  rw [gCpuNums] at hi
  have h1 : ¬ 49152 + 56 * i + o < 49152 := by omega
  have h2 : 49152 + 56 * i + o < 114688 := by omega
  have h3 : (49152 + 56 * i + o - 49152) / 56 = i := by omega
  have h4 : (49152 + 56 * i + o - 49152) % 56 = o := by omega
  rw [Image.mem, getLocalPageListAddr_eq, if_neg h1, if_pos h2, h3, h4]

/-- The byte at position `o` of page `k` and its node. -/
theorem mem_page {k o : Nat} (ho : o < 4136) :
    I.mem (pageOff k + o) = if o < 4096 then I.body k o
      else if o < 4104 then wordByte (I.next k) (o - 4096)
      else if o < 4112 then wordByte (pageOff k) (o - 4104) else 0 := by
  have hk := pageOff_eq k
  have h1 : ¬ pageOff k + o < 49152 := by omega
  have h2 : ¬ pageOff k + o < 114688 := by omega
  have h3 : (pageOff k + o - 114688) / 4136 = k := by omega
  have h4 : (pageOff k + o - 114688) % 4136 = o := by omega
  rw [Image.mem, if_neg h1, if_neg h2, h3, h4]

theorem get_head {i : Nat} (hi : i ≤ gCpuNums) :
    PageList.head.get I.mem (getLocalPageListAddr i) = I.head i % 2 ^ 64 :=
  load_eq_of_bytes fun j hj => by
    simp only [PageList.head_off, PageList.head_size, Nat.add_zero] at hj ⊢
    rw [I.mem_header hi (by omega), if_pos hj, wordByte]

theorem get_count {i : Nat} (hi : i ≤ gCpuNums) :
    PageList.count.get I.mem (getLocalPageListAddr i) = I.count i % 2 ^ 64 :=
  load_eq_of_bytes fun j hj => by
    simp only [PageList.count_off, PageList.count_size] at hj ⊢
    rw [Nat.add_assoc, I.mem_header hi (by omega), if_neg (by omega), if_pos (by omega), wordByte,
      Nat.add_sub_cancel_left]

theorem pageLink_mem {k : Nat} (hk : k < nvmFreeNumPages) :
    pageLink I.mem (pageOff k) = I.next k % 2 ^ 64 := by
  rw [IsPage.pageLink_eq ⟨k, hk, rfl⟩]
  refine load_eq_of_bytes fun j hj => ?_
  simp only [ListNode.nextOffset_off, ListNode.nextOffset_size, Nat.add_zero] at hj ⊢
  rw [Nat.add_assoc, I.mem_page (by omega), if_neg (by omega), if_pos (by omega), wordByte,
    Nat.add_sub_cancel_left]

theorem get_offset {k : Nat} (hk : k < nvmFreeNumPages) :
    ListNode.offset.get I.mem (pageOff k + 4096) = pageOff k := by
  have hlt : pageOff k < 2 ^ 64 := by
    have := IsPage.bounds ⟨k, hk, rfl⟩
    omega
  have := load_eq_of_bytes (m := I.mem) (a := pageOff k + 4096 + 8) (n := 8) (v := pageOff k)
    fun j hj => by
      have ho : 4096 + 8 + j - 4104 = j := by omega
      rw [Nat.add_assoc, Nat.add_assoc, ← Nat.add_assoc 4096, I.mem_page (by omega),
        if_neg (by omega), if_neg (by omega), if_pos (by omega), wordByte, ho]
  rwa [Nat.mod_eq_of_lt (by simpa using hlt)] at this

theorem nullNodeOffset_mem : nullNodeOffset I.mem = 0 := by
  have := load_eq_of_bytes (m := I.mem) (a := 4103) (n := 8) (v := 0) fun j hj => by
    simp only [Image.mem, Nat.zero_div]
    rw [if_pos (by omega)]
    rfl
  exact this

end Image

/-- `n` consecutive pages from number `s` on. -/
def pageRun (s n : Nat) : List Nat := (List.range n).map fun j => pageOff (s + j)

theorem mem_pageRun {s n p : Nat} : p ∈ pageRun s n ↔ ∃ j < n, p = pageOff (s + j) := by
  simp only [pageRun, List.mem_map, List.mem_range]
  exact ⟨fun ⟨j, hj, h⟩ => ⟨j, hj, h.symm⟩, fun ⟨j, hj, h⟩ => ⟨j, hj, h.symm⟩⟩

theorem length_pageRun (s n : Nat) : (pageRun s n).length = n := by simp [pageRun]

theorem nodup_pageRun (s n : Nat) : (pageRun s n).Nodup := by
  refine List.nodup_range.map ?_
  intro i j h
  have := pageOff_injective h
  omega

theorem segment_pageRun {f : Nat → Nat} {s n : Nat} (hn : 1 ≤ n)
    (h : ∀ j < n, f (pageOff (s + j)) = if j + 1 = n then offsetNull else pageOff (s + j + 1)) :
    Segment f (pageOff s) (pageRun s n) offsetNull := by
  induction n generalizing s with
  | zero => omega
  | succ n ih =>
    have hrun : pageRun s (n + 1) = pageOff s :: pageRun (s + 1) n := by
      simp only [pageRun, List.range_succ_eq_map, List.map_cons, List.map_map, Nat.add_zero]
      congr 1
      exact List.map_congr_left fun j _ => by
        simp only [Function.comp]
        congr 1
        omega
    rw [hrun]
    refine ⟨rfl, ?_⟩
    have h0 := h 0 (by omega)
    rw [Nat.add_zero, Nat.zero_add] at h0
    rw [h0]
    cases n with
    | zero => rfl
    | succ n =>
      rw [if_neg (by omega)]
      refine ih (by omega) fun j hj => ?_
      have := h (j + 1) (by omega)
      rw [show s + 1 + j = s + (j + 1) by omega, this]
      grind

/-- `G` pages on the global list, then `L` on each of the 64 local lists, in order. -/
def freeImage (G L : Nat) (body : Nat → Nat → UInt8) : Image where
  head i := if i = 0 then (if G = 0 then offsetNull else pageOff 0) else pageOff (G + (i - 1) * L)
  count i := if i = 0 then G else L
  next k := if k + 1 = G ∨ (G ≤ k ∧ (k - G + 1) % L = 0) then offsetNull else pageOff (k + 1)
  body := body

def freeLists (G L i : Nat) : List Nat := if i = 0 then pageRun 0 G else pageRun (G + (i - 1) * L) L

section FreeImage

variable {G L : Nat} {body : Nat → Nat → UInt8}

theorem freeLists_zero : freeLists G L 0 = pageRun 0 G := rfl

theorem freeLists_pos {i : Nat} (hi : i ≠ 0) : freeLists G L i = pageRun (G + (i - 1) * L) L :=
  if_neg hi

theorem length_freeLists {i : Nat} (hi : i ≠ 0) : (freeLists G L i).length = L := by
  rw [freeLists_pos hi, length_pageRun]

/-- The page numbers of the lists: below `G` on the global list, from `G` on by blocks of `L`. -/
theorem mem_freeLists {i p : Nat} : p ∈ freeLists G L i ↔
    ∃ k, p = pageOff k ∧ (i = 0 ∧ k < G ∨ i ≠ 0 ∧ G + (i - 1) * L ≤ k ∧
      k < G + (i - 1) * L + L) := by
  by_cases hi : i = 0
  · subst hi
    rw [freeLists_zero, mem_pageRun]
    constructor
    · rintro ⟨j, hj, rfl⟩
      exact ⟨0 + j, rfl, .inl ⟨rfl, by omega⟩⟩
    · rintro ⟨k, rfl, hk⟩
      exact ⟨k, by simpa using hk, by rw [Nat.zero_add]⟩
  · rw [freeLists_pos hi, mem_pageRun]
    constructor
    · rintro ⟨j, hj, rfl⟩
      exact ⟨_, rfl, .inr ⟨hi, by omega, by omega⟩⟩
    · rintro ⟨k, rfl, hk⟩
      have hk : G + (i - 1) * L ≤ k ∧ k < G + (i - 1) * L + L := by simpa [hi] using hk
      exact ⟨k - (G + (i - 1) * L), by omega, by rw [Nat.add_sub_cancel' hk.1]⟩

theorem freeImage_wellFormed (hL : 1 ≤ L) (hN : G + gCpuNums * L ≤ nvmFreeNumPages) :
    WellFormed (freeImage G L body).mem (freeLists G L) := by
  have block {i : Nat} (hi : i ≤ gCpuNums) (h0 : i ≠ 0) : (i - 1) * L + L ≤ gCpuNums * L := by
    calc (i - 1) * L + L = (i - 1 + 1) * L := by ring
      _ = i * L := by rw [Nat.sub_add_cancel (by omega)]
      _ ≤ gCpuNums * L := Nat.mul_le_mul_right _ hi
  have small {k : Nat} (hk : k < nvmFreeNumPages) : pageOff k % 2 ^ 64 = pageOff k := by
    have := IsPage.bounds ⟨k, hk, rfl⟩
    exact Nat.mod_eq_of_lt (by omega)
  have isPage {i p : Nat} (hi : i ≤ gCpuNums) (hp : p ∈ freeLists G L i) :
      ∃ k, k < nvmFreeNumPages ∧ p = pageOff k := by
    obtain ⟨k, rfl, ⟨-, hk⟩ | ⟨h0, -, hk⟩⟩ := mem_freeLists.1 hp
    · exact ⟨k, by omega, rfl⟩
    · have := block hi h0
      exact ⟨k, by omega, rfl⟩
  constructor
  · intro i hi
    have hNL := nvmFreeNumPages_eq
    by_cases h0 : i = 0
    · subst h0
      rw [freeLists_zero, length_pageRun]
      constructor
      · rw [Image.get_head _ hi, freeImage]
        by_cases hG : G = 0
        · subst hG
          rfl
        · simp only [if_true, hG, if_false]
          rw [small (by omega)]
          refine segment_pageRun (by omega) fun j hj => ?_
          rw [Nat.zero_add, Image.pageLink_mem _ (by omega)]
          by_cases hj' : j + 1 = G
          · simp [hj', offsetNull]
          · simp only [hj', false_or, if_false]
            rw [if_neg (by omega), small (by omega)]
      · rw [Image.get_count _ hi, freeImage]
        exact Nat.mod_eq_of_lt (by simp only [if_true]; omega)
    · have hb := block hi h0
      have hlast {j : Nat} (hj : j < L) : ((i - 1) * L + j + 1) % L = 0 ↔ j + 1 = L := by
        rw [Nat.add_assoc, Nat.mul_add_mod']
        constructor
        · intro h
          by_contra hne
          rw [Nat.mod_eq_of_lt (by omega)] at h
          omega
        · intro h
          rw [h, Nat.mod_self]
      rw [freeLists_pos h0, length_pageRun]
      constructor
      · rw [Image.get_head _ hi, freeImage]
        simp only [h0, if_false]
        rw [small (by omega)]
        refine segment_pageRun hL fun j hj => ?_
        rw [Image.pageLink_mem _ (by omega)]
        have hnext : G + (i - 1) * L + j + 1 ≠ G := by omega
        have hge : G ≤ G + (i - 1) * L + j := by omega
        have hsub : G + (i - 1) * L + j - G + 1 = (i - 1) * L + j + 1 := by omega
        simp only [hnext, hge, hsub, false_or, true_and, hlast hj]
        by_cases hj' : j + 1 = L
        · simp [hj', offsetNull]
        · simp only [hj', if_false]
          exact small (by omega)
      · rw [Image.get_count _ hi, freeImage]
        simp only [h0, if_false]
        exact Nat.mod_eq_of_lt (by rw [gCpuNums] at hN; omega)
  · intro i hi p hp
    obtain ⟨k, hk, rfl⟩ := isPage hi hp
    refine ⟨⟨k, hk, rfl⟩, ?_⟩
    rw [IsPage.getNvmPageNodeAddr_eq ⟨k, hk, rfl⟩]
    exact Image.get_offset _ hk
  · intro i hi
    by_cases h0 : i = 0
    · subst h0; exact nodup_pageRun _ _
    · rw [freeLists_pos h0]; exact nodup_pageRun _ _
  · intro i hi j hj hij p hpi hpj
    obtain ⟨k, rfl, hk⟩ := mem_freeLists.1 hpi
    obtain ⟨k', hkk, hk'⟩ := mem_freeLists.1 hpj
    obtain rfl := pageOff_injective hkk
    rcases hk with ⟨rfl, hk⟩ | ⟨hi0, hk1, hk2⟩
    · rcases hk' with ⟨rfl, -⟩ | ⟨-, hk1, -⟩
      · exact hij rfl
      · omega
    · rcases hk' with ⟨rfl, hk'⟩ | ⟨hj0, hk1', hk2'⟩
      · omega
      · -- blocks of length `L` that share a number have the same index
        rcases Nat.lt_or_gt_of_ne hij with h | h
        · have := Nat.mul_le_mul_right L (show i - 1 + 1 ≤ j - 1 by omega)
          rw [Nat.add_mul] at this
          omega
        · have := Nat.mul_le_mul_right L (show j - 1 + 1 ≤ i - 1 by omega)
          rw [Nat.add_mul] at this
          omega

end FreeImage

end Atfs
