import Atfs.State

/-!
# The inode log (nvmio.c)

The log of an inode is a chain of pages whose bodies hold entries of 48 bytes. The
tail points behind the last entry. When no entry fits behind it any more,
`get_log_entry` links a new page behind the last one.
-/

namespace Atfs

open ByteMemory LinkedChain

/-! ## Places in the log -/

def isLastEntry (tail : Nat) : Bool :=
  let offset := getNvmPageOff2freeSpace tail
  let entryEnd := offset % atfsPageSize + sizeofFileLogEntry
  entryEnd > pageSize

/-- `free_space + (off - free_space) / ATFS_PAGE_SIZE * ATFS_PAGE_SIZE`. -/
def logPageOff (off : Nat) : Nat :=
  getFreeSpaceBaseAddr + subU64 off getFreeSpaceBaseAddr / atfsPageSize * atfsPageSize

def entry2logPage (entry : Nat) : Nat := getNvmPage2nodeAddr (logPageOff entry)

def nextLogPage (m : Memory) (tail : Nat) : Nat :=
  ListNode.nextOffset.get m (getNvmPage2nodeAddr (logPageOff tail))

/-! ## Entries -/

/-- `get_log_entry`: the entry, the advanced tail and the state after. -/
def getLogEntry (A : PageAllocator) (s : State) (logTail : Nat) :
    Except Fault (Nat × Nat × State) := do
  let entrySize := sizeofFileLogEntry
  if isLastEntry logTail then
    let lastPage := getNvmPageNodeAddr (logPageOff logTail)
    let (pages, s) ← A.allocFreePages s writeLogPerAlloc
    let page := ListNode.offset.get s.mem pages
    let m := ListNode.nextOffset.set s.mem lastPage page
    let logTail := page + entrySize
    let m := ListNode.invalidCnt.set m pages 0
    let m := ListNode.objCnt.set m pages 1
    let m := ListNode.invalidPages.set m pages 0
    let m := ListNode.pagesCnt.set m pages 0
    .ok (page, logTail,
      { s with mem := m, trace := .logEntry page :: .logPage page :: s.trace })
  else
    let entry := logTail
    let logTail := logTail + entrySize
    let pages := entry2logPage logTail
    let m := ListNode.objCnt.set s.mem pages (ListNode.objCnt.get s.mem pages + 1)
    .ok (entry, logTail, { s with mem := m, trace := .logEntry entry :: s.trace })

def initLogEntry (m : Memory) (entry pages fileSize allocNum startWriteOff endWriteOff : Nat) :
    Memory :=
  let pageNode := entry2logPage entry
  let m := ListNode.pagesCnt.set m pageNode (ListNode.pagesCnt.get m pageNode + allocNum)
  let m := fill m entry sizeofFileLogEntry 0
  let m := FileLogEntry.data.set m entry pages
  let m := FileLogEntry.fileSize.set m entry fileSize
  let m := FileLogEntry.startWriteOff.set m entry startWriteOff
  let m := FileLogEntry.endWriteOff.set m entry endWriteOff
  FileLogEntry.numPages.set m entry allocNum

def invalidateOldLogEntry (m : Memory) (oldEntry pageOff : Nat) : Memory :=
  let startOff := FileLogEntry.startWriteOff.get m oldEntry / pageSize
  let currOff := pageOff / pageSize
  -- a 64-bit shift takes its distance modulo 64
  let pos := subU64 currOff startOff % 64
  let m := FileLogEntry.bitmap.set m oldEntry (FileLogEntry.bitmap.get m oldEntry ||| 1 <<< pos)
  let m := FileLogEntry.invalidPages.set m oldEntry (FileLogEntry.invalidPages.get m oldEntry + 1)
  let pageNode := entry2logPage oldEntry
  let m := ListNode.invalidPages.set m pageNode (ListNode.invalidPages.get m pageNode + 1)
  if FileLogEntry.numPages.get m oldEntry = FileLogEntry.invalidPages.get m oldEntry then
    ListNode.invalidCnt.set m pageNode (ListNode.invalidCnt.get m pageNode + 1)
  else m

/-! ## The inode -/

def updateInodeTail (m : Memory) (inode logTail : Nat) : Memory :=
  AtfsInode.logTail.set m inode logTail

def updateInodeOffset (m : Memory) (inode cnt : Nat) : Memory :=
  AtfsInode.fileOff.set m inode (AtfsInode.fileOff.get m inode + cnt)

def updateInodeSize (m : Memory) (inode cnt : Nat) : Memory :=
  let fileOff := AtfsInode.fileOff.get m inode
  if addU64 fileOff cnt > AtfsInode.iSize.get m inode then
    AtfsInode.iSize.set m inode (addU64 fileOff cnt)
  else m

def updateInodeInfo (m : Memory) (inode cnt : Nat) : Memory :=
  updateInodeSize (updateInodeOffset m inode cnt) inode 0

/-! ## Places in a page -/

section Place

variable {T a : Nat}

theorem IsPage.logPageOff_eq (hT : IsPage T) (ha : a ∈ pageBytes T) : logPageOff a = T := by
  have := hT.bounds
  rw [mem_pageBytes] at ha
  rw [logPageOff, getFreeSpaceBaseAddr_eq, subU64_of_le (by omega) (by omega), atfsPageSize_eq]
  exact hT.eq_of_mem ha.1 ha.2

theorem IsPage.entry2logPage_eq (hT : IsPage T) (ha : a ∈ pageBytes T) :
    entry2logPage a = T + 4096 := by
  rw [entry2logPage, hT.logPageOff_eq ha, hT.getNvmPage2nodeAddr_eq]

theorem IsPage.nextLogPage_eq (hT : IsPage T) (ha : a ∈ pageBytes T) (m : Memory) :
    nextLogPage m a = pageLink m T := by
  rw [nextLogPage, hT.logPageOff_eq ha, hT.getNvmPage2nodeAddr_eq, hT.pageLink_eq]

/-- The rollover test compares with the end of the page body. -/
theorem IsPage.isLastEntry_iff (hT : IsPage T) (ha : a ∈ pageBytes T) :
    isLastEntry a = true ↔ T + 4048 < a := by
  have := hT.bounds
  have hmem := ha
  rw [mem_pageBytes] at ha
  have := hT.eq_of_mem ha.1 ha.2
  have base : freeSpaceStart * pageSize = 114688 := rfl
  have size : sizeofFileLogEntry = 48 := rfl
  rw [isLastEntry, getNvmPageOff2freeSpace, base, size, subU64_of_le (by omega) (by omega),
    atfsPageSize_eq, pageSize_eq, decide_eq_true_iff]
  omega

end Place

end Atfs
