import Atfs.Internal
import Mathlib.Data.Rat.Cast.Order
import Mathlib.Algebra.Order.Field.Basic
import Mathlib.Tactic.Linarith

/-!
# When the collector runs (gc.c)

`gc_task_thread` wakes up every three seconds and compares the share of the writes and of the reads
with a rate, and a count of free pages with a threshold. The count is read through
`get_free_space_base_addr`, so what is compared is the second word of the first page body.
-/

namespace Atfs

open ByteMemory

/-! ## Rates and thresholds -/

def dominationRate : ℚ := 75 / 100
def writeRate : ℚ := 7 / 10
def readRate : ℚ := 9 / 10
def writeDominationThs : ℚ := (nvmMmapSize >>> pageShift : Nat) * (1 - writeRate)
def readDominationThs : ℚ := (nvmMmapSize >>> pageShift : Nat) * (1 - readRate)

theorem writeDominationThs_eq : writeDominationThs = 12582912 / 10 := by
  rw [writeDominationThs, writeRate, show nvmMmapSize >>> pageShift = 4194304 from rfl]
  norm_num

theorem readDominationThs_eq : readDominationThs = 4194304 / 10 := by
  rw [readDominationThs, readRate, show nvmMmapSize >>> pageShift = 4194304 from rfl]
  norm_num

/-! ## One wake-up -/

/-- The two counters of gc.c. -/
structure AccessCounters where
  gWriteTimesCnt : Nat
  gReadTimesCnt : Nat
  deriving DecidableEq

/-- One round of the loop of `gc_task_thread`, with the doubles as rationals: the counters after it,
and whether it runs `start_gc_task`. -/
def gcTaskThread (m : Memory) (c : AccessCounters) : AccessCounters × Bool :=
  let gList := getFreeSpaceBaseAddr
  let accessTimes := addU64 c.gWriteTimesCnt c.gReadTimesCnt
  let writeTimes := c.gWriteTimesCnt
  let readTimes := c.gReadTimesCnt
  if accessTimes = 0 then (c, false)
  else
    let wRate : ℚ := writeTimes / accessTimes
    let rRate : ℚ := readTimes / accessTimes
    let count : ℚ := PageList.count.get m gList
    if wRate ≥ dominationRate ∧ count < writeDominationThs ∨
        rRate ≥ dominationRate ∧ count < readDominationThs then
      (⟨0, 0⟩, true)
    else (c, false)

/-- The counters decide up to which count the collector runs: to none where nothing was accessed or
neither kind of access dominates. -/
def AccessCounters.limit (c : AccessCounters) : Nat :=
  let accessTimes := addU64 c.gWriteTimesCnt c.gReadTimesCnt
  if accessTimes = 0 then 0
  else if 3 * accessTimes ≤ 4 * c.gWriteTimesCnt then 1258292
  else if 3 * accessTimes ≤ 4 * c.gReadTimesCnt then 419431
  else 0

section Decision

variable {m m' : Memory} {c : AccessCounters}

theorem dominates_iff {n k : Nat} (hk : k ≠ 0) :
    (n / k : ℚ) ≥ dominationRate ↔ 3 * k ≤ 4 * n := by
  have hpos : (0 : ℚ) < k := by exact_mod_cast Nat.pos_of_ne_zero hk
  rw [ge_iff_le, le_div_iff₀ hpos, dominationRate]
  constructor
  · intro h
    have h' : (3 * k : ℚ) ≤ 4 * n := by linarith
    exact_mod_cast h'
  · intro h
    have h' : (3 * k : ℚ) ≤ 4 * n := by exact_mod_cast h
    linarith

theorem lt_writeDominationThs {n : Nat} : (n : ℚ) < writeDominationThs ↔ n < 1258292 := by
  rw [writeDominationThs_eq, lt_div_iff₀ (by norm_num)]
  constructor
  · intro h
    have h' : n * 10 < 12582912 := by exact_mod_cast h
    omega
  · intro h
    have h' : n * 10 < 12582912 := by omega
    exact_mod_cast h'

theorem lt_readDominationThs {n : Nat} : (n : ℚ) < readDominationThs ↔ n < 419431 := by
  rw [readDominationThs_eq, lt_div_iff₀ (by norm_num)]
  constructor
  · intro h
    have h' : n * 10 < 4194304 := by exact_mod_cast h
    omega
  · intro h
    have h' : n * 10 < 4194304 := by omega
    exact_mod_cast h'

/-- The collector runs if the word behind the start of the free space is below the limit. -/
theorem gcTaskThread_eq (m : Memory) (c : AccessCounters) :
    gcTaskThread m c =
      if PageList.count.get m getFreeSpaceBaseAddr < c.limit then (⟨0, 0⟩, true) else
        (c, false) := by
  rw [gcTaskThread, AccessCounters.limit]
  by_cases h : addU64 c.gWriteTimesCnt c.gReadTimesCnt = 0
  · simp [h]
  · simp only [h, if_false, dominates_iff h, lt_writeDominationThs, lt_readDominationThs]
    refine if_congr ?_ rfl rfl
    -- the threshold for writes is the larger one
    grind

theorem gcTaskThread_snd : (gcTaskThread m c).2 = true ↔
    PageList.count.get m getFreeSpaceBaseAddr < c.limit := by
  rw [gcTaskThread_eq]
  split_ifs with h <;> simp [h]

/-- The decision rests on eight bytes of the first page body. -/
theorem gcTaskThread_congr
    (h : Set.EqOn m' m (Set.Ico (getFreeSpaceBaseAddr + 8) (getFreeSpaceBaseAddr + 16))) :
    gcTaskThread m' c = gcTaskThread m c := by
  have hword : PageList.count.get m' getFreeSpaceBaseAddr =
      PageList.count.get m getFreeSpaceBaseAddr :=
    Field.get_congr h
  rw [gcTaskThread_eq, gcTaskThread_eq, hword]

/-- Whatever the count of the global page list is, two images lead to the same decision exactly if
the second words of their first page bodies lie on the same side of the limit. -/
theorem gcTaskThread_agree_iff (m m' : Memory) (c : AccessCounters) :
    gcTaskThread m c = gcTaskThread m' c ↔
      (PageList.count.get m getFreeSpaceBaseAddr < c.limit ↔
        PageList.count.get m' getFreeSpaceBaseAddr < c.limit) := by
  constructor
  · intro h
    rw [← gcTaskThread_snd, ← gcTaskThread_snd, h]
  · intro h
    rw [gcTaskThread_eq, gcTaskThread_eq]
    exact if_congr h rfl rfl

/-- An image with 100 pages on the global list and nothing else. -/
def bareImage : Memory := PageList.count.set (fun _ => 0) getPageListBaseAddr 100

/-- The same image with user data in the first page body. -/
def dataImage : Memory := PageList.count.set bareImage getFreeSpaceBaseAddr (2 ^ 63)

/-- The data of a file stops the collector: the images agree outside the first page body, and on the
count of the global page list. -/
theorem gcTaskThread_dataImage :
    PageList.count.get bareImage getPageListBaseAddr = 100 ∧
      PageList.count.get dataImage getPageListBaseAddr = 100 ∧
      ChangesOnly (Set.Ico getFreeSpaceBaseAddr (getFreeSpaceBaseAddr + pageSize)) bareImage
        dataImage ∧
      gcTaskThread bareImage ⟨1, 0⟩ = (⟨0, 0⟩, true) ∧
      gcTaskThread dataImage ⟨1, 0⟩ = (⟨1, 0⟩, false) := by
  have hlimit : AccessCounters.limit ⟨1, 0⟩ = 1258292 := by decide
  refine ⟨by decide, by decide, ?_, ?_, ?_⟩
  · refine (Field.changesOnly_set _ _ _ _).mono fun a ha => ?_
    rw [Field.bytes, PageList.count_off, PageList.count_size, Set.mem_Ico] at ha
    rw [getFreeSpaceBaseAddr_eq, Set.mem_Ico, pageSize_eq] at *
    omega
  · rw [gcTaskThread_eq, hlimit, if_pos (by decide)]
  · rw [gcTaskThread_eq, hlimit, if_neg (by decide)]

end Decision

end Atfs
