import Atfs.Log.Append

/-!
# Reading and writing (nvmio.c, atfsrw.c)

`nvmio_write` splits a write into chunks of at most 64 pages. Every chunk gets fresh
pages and one log entry, copies the user's bytes and then fills the edges of its first
and last page from the pages the index had for them. The new tail and the index are
set when all chunks are written. `nvmio_read` looks every page up in the index and
supplies zeroes for pages that have none.
-/

namespace Atfs

open ByteMemory LinkedChain

/-! ## The index -/

/-- Point the pages of one entry to the pages of its chain. -/
def indexEntry (m : Memory) (index : Nat → Nat) (entry : Nat) : Nat → Nat :=
  (List.range (FileLogEntry.numPages.get m entry)).foldl (fun index k =>
    Function.update index (addU64 (FileLogEntry.startWriteOff.get m entry) (k * pageSize))
      ((pageLink m)^[k] (FileLogEntry.data.get m entry))) index

def indexEntries (m : Memory) (index : Nat → Nat) (entries : List Nat) : Nat → Nat :=
  entries.foldl (indexEntry m) index

/-- The contract of `update_radixtree`, which the code calls and does not define: the
entries appended to the log of the inode since `old_tail` are entered into its index. -/
structure RadixTree where
  updateRadixtree : State → Nat → Nat → State
  spec : ∀ s inode oldTail ts,
    Segment (slotEnd s.mem) oldTail ts (AtfsInode.logTail.get s.mem inode) →
    AtfsInode.logTail.get s.mem inode ∉ ts →
    updateRadixtree s inode oldTail = { s with
      index := Function.update s.index inode
        (indexEntries s.mem (s.index inode) (ts.map (nextSlot s.mem))) }

/-! ## Writing -/

/-- The variables of `nvmio_write` that are carried from chunk to chunk. -/
structure WriteVars where
  fileOff : Nat
  fileSize : Nat
  offset : Nat
  pageNums : Nat
  startPage : Nat
  totalSize : Nat
  /-- How far `user_buf` has moved. -/
  userBuf : Nat
  logTail : Nat

/-- `alloc_num`: how many pages the next chunk takes. -/
def WriteVars.allocNum (v : WriteVars) : Nat :=
  if v.pageNums > maxNumPagePerEntry then maxNumPagePerEntry else v.pageNums

/-- `wr_size`: how much of the write the chunk of `alloc_num` pages takes. -/
def chunkSize (v : WriteVars) (allocNum : Nat) : Nat :=
  let wrSize := pageSize * allocNum - v.offset
  if v.totalSize < wrSize then v.totalSize else wrSize

/-- `first_page_wr`, `mid_num` and `last_page_wr`. -/
def chunkParts (v : WriteVars) (allocNum wrSize : Nat) : Nat × Int × Nat :=
  let midNum : Int := allocNum
  if v.totalSize ≤ pageSize - v.offset then
    (v.totalSize, midNum - 1, 0)
  else
    let (firstPageWr, midNum) :=
      if v.offset ≠ 0 then (pageSize - v.offset, midNum - 1) else (0, midNum)
    let lastPageWr := (wrSize + v.offset) &&& pageOffsetMask
    let midNum := if lastPageWr ≠ 0 then midNum - 1 else midNum
    (firstPageWr, midNum, lastPageWr)

/-- The memory, `page_addr` and how far `user_buf` has moved. -/
structure Cursor where
  mem : Memory
  pageAddr : Nat
  userBuf : Nat

/-- Copy `size` bytes of the user into the page at `offset`, move on by `step` bytes and,
unless the page is the last one, to the next page. -/
def writePage (buf : Memory) (entryOff offset size step : Nat) (c : Cursor) : Cursor :=
  let pageAddrNode := getNvmPage2nodeAddr c.pageAddr
  let m := ListNode.logEntry.set c.mem pageAddrNode entryOff
  let m := copy m (c.pageAddr + offset) buf c.userBuf size
  let next := ListNode.nextOffset.get m pageAddrNode
  { mem := m
    pageAddr := if next ≠ offsetNull then next else c.pageAddr
    userBuf := c.userBuf + step }

/-- Copy the first, the middle and the last pages of a chunk. -/
def writePages (buf : Memory) (entryOff offset : Nat) (parts : Nat × Int × Nat) (c : Cursor) :
    Cursor :=
  let (firstPageWr, midNum, lastPageWr) := parts
  let c := if firstPageWr ≠ 0 then
    writePage buf entryOff offset firstPageWr (pageSize - offset) c else c
  let c := (writePage buf entryOff 0 pageSize pageSize)^[midNum.toNat] c
  if lastPageWr ≠ 0 then writePage buf entryOff 0 lastPageWr lastPageWr c else c

/-- Fill the first page in front of the write from the page `part_page`. -/
def fillFirstPage (m : Memory) (node2page partPageOff offset firstPageWr : Nat) : Memory :=
  if firstPageWr ≠ 0 ∧ partPageOff ≠ offsetNull then copy m node2page m partPageOff offset else m

/-- Fill the last page behind the write. The source is computed on a `list_node_t *`, so
it advances by 40 bytes for every byte of `last_page_wr`. -/
def fillLastPage (m : Memory) (pageAddr partPageOff lastPageWr : Nat) : Memory :=
  if lastPageWr ≠ 0 ∧ partPageOff ≠ offsetNull then
    copy m (pageAddr + lastPageWr) m (partPageOff + sizeofListNode * lastPageWr)
      (pageSize - lastPageWr)
  else m

/-- One round of the loop of `nvmio_write`. -/
def writeChunk (A : PageAllocator) (inode : Nat) (buf : Memory) (v : WriteVars) (s : State) :
    Except Fault (WriteVars × State) := do
  let allocNum := v.allocNum
  let (pages, s) ← A.allocFreePages s allocNum
  let node2page := getNvmNode2pageAddr pages
  let wrSize := chunkSize v allocNum
  let parts := chunkParts v allocNum wrSize
  let (entry, logTail, s) ← getLogEntry A s v.logTail
  let c := writePages buf entry v.offset parts ⟨s.mem, node2page, v.userBuf⟩
  let m := fillFirstPage c.mem node2page (s.index inode v.startPage) v.offset parts.1
  let m := fillLastPage m c.pageAddr
    (s.index inode (addU64 v.startPage ((allocNum - 1) * pageSize))) parts.2.2
  let fileOff := addU64 v.fileOff wrSize
  let fileSize := if fileOff > v.fileSize then fileOff else v.fileSize
  let startWriteOff := v.startPage
  let endWriteOff := addU64 startWriteOff wrSize
  let m := initLogEntry m entry (ListNode.offset.get m pages) fileSize allocNum
    startWriteOff endWriteOff
  .ok ({
    fileOff, fileSize, logTail
    offset := 0
    pageNums := v.pageNums - allocNum
    startPage := addU64 v.startPage (allocNum * pageSize)
    totalSize := v.totalSize - wrSize
    userBuf := c.userBuf }, { s with mem := m })

/-- The loop of `nvmio_write`, with a bound on its rounds. -/
def writeLoop (A : PageAllocator) (inode : Nat) (buf : Memory) :
    Nat → WriteVars → State → Except Fault (WriteVars × State)
  | 0, _, _ => .error .outOfFuel
  | fuel + 1, v, s =>
    if v.pageNums > 0 then do
      let (v, s) ← writeChunk A inode buf v s
      writeLoop A inode buf fuel v s
    else .ok (v, s)

/-- What `nvmio_write` sets its variables to. -/
def writeVars (m : Memory) (inode cnt fileOff : Nat) : WriteVars where
  logTail := AtfsInode.logTail.get m inode
  fileSize := AtfsInode.iSize.get m inode
  offset := fileOff &&& pageOffsetMask
  pageNums := addU64 (subU64 (addU64 cnt (fileOff &&& pageOffsetMask)) 1 >>> pageShift) 1
  startPage := fileOff &&& pageMask
  fileOff := fileOff
  totalSize := cnt
  userBuf := 0

/-- `nvmio_write`: the value returned and the state after. -/
def nvmioWrite (A : PageAllocator) (R : RadixTree) (s : State) (inode : Nat) (buf : Memory)
    (cnt fileOff : Nat) : Except Fault (Nat × State) := do
  let v := writeVars s.mem inode cnt fileOff
  let (v, s) ← writeLoop A inode buf (v.pageNums + 1) v s
  let oldLogTail := AtfsInode.logTail.get s.mem inode
  let s := { s with mem := updateInodeTail s.mem inode v.logTail }
  .ok (cnt, R.updateRadixtree s inode oldLogTail)

/-! ## Reading -/

/-- The variables of `nvmio_read`; `buf` is the user's buffer. -/
structure ReadVars where
  offset : Nat
  startPage : Nat
  totalSize : Nat
  userBuf : Nat
  buf : Memory

def readChunk (s : State) (inode : Nat) (v : ReadVars) : ReadVars :=
  let partPageOff := s.index inode v.startPage
  let rdSize :=
    if v.offset ≠ 0 then
      if v.totalSize < pageSize - v.offset then v.totalSize else pageSize - v.offset
    else if v.totalSize < pageSize then v.totalSize
    else pageSize
  let buf :=
    if partPageOff ≠ offsetNull then
      copy v.buf v.userBuf s.mem (partPageOff + v.offset) rdSize
    else fill v.buf v.userBuf rdSize 0
  { offset := 0
    startPage := addU64 v.startPage pageSize
    totalSize := v.totalSize - rdSize
    userBuf := v.userBuf + rdSize
    buf }

/-- The loop of `nvmio_read`, with a bound on its rounds. -/
def readLoop (s : State) (inode : Nat) : Nat → ReadVars → Except Fault ReadVars
  | 0, _ => .error .outOfFuel
  | fuel + 1, v => if v.totalSize > 0 then readLoop s inode fuel (readChunk s inode v) else .ok v

/-- `nvmio_read`: the value returned and the user's buffer after. -/
def nvmioRead (s : State) (inode : Nat) (buf : Memory) (cnt fileOff : Nat) :
    Except Fault (Int × Memory) :=
  if addU64 fileOff cnt > AtfsInode.iSize.get s.mem inode then .ok (-1, buf)
  else do
    let v ← readLoop s inode (cnt + 1) {
      offset := fileOff &&& pageOffsetMask
      startPage := fileOff &&& pageMask
      totalSize := cnt
      userBuf := 0
      buf }
    .ok (cnt, v.buf)

/-! ## The locked bodies (atfsrw.c) -/

/-- `atfswrite` between lock and unlock. -/
def atfswrite (A : PageAllocator) (R : RadixTree) (s : State) (inode : Nat) (buf : Memory)
    (cnt : Nat) : Except Fault (Nat × State) := do
  let (ret, s) ← nvmioWrite A R s inode buf cnt (AtfsInode.fileOff.get s.mem inode)
  .ok (ret, { s with mem := updateInodeInfo s.mem inode cnt })

inductive Whence
  | seekSet
  | seekCur
  | seekEnd
  /-- Any other value. -/
  | other
  deriving DecidableEq

/-- `atfslseek` between lock and unlock: the value returned as a `u64`, and the state after.
The signed offset is added modulo 2^64. -/
def atfslseek (s : State) (inode : Nat) (offset : Int) (whence : Whence) : Nat × State :=
  let setFileOff (fileOff : Int) : Nat × State :=
    let m := AtfsInode.fileOff.set s.mem inode (fileOff % 2 ^ 64).toNat
    (AtfsInode.fileOff.get m inode, { s with mem := m })
  match whence with
  | .seekSet => setFileOff offset
  | .seekCur => setFileOff (AtfsInode.fileOff.get s.mem inode + offset)
  | .seekEnd => setFileOff (AtfsInode.iSize.get s.mem inode + offset)
  | .other => (22, s)

/-! ## An index -/

open Classical in
/-- Follow the log from the old tail to the new one and enter what stands there. -/
noncomputable def radixTree : RadixTree where
  updateRadixtree s inode oldTail :=
    if h : ∃ ts, Segment (slotEnd s.mem) oldTail ts (AtfsInode.logTail.get s.mem inode) ∧
        AtfsInode.logTail.get s.mem inode ∉ ts then
      { s with
        index := Function.update s.index inode
          (indexEntries s.mem (s.index inode) (h.choose.map (nextSlot s.mem))) }
    else s
  spec := by
    intro s inode oldTail ts hpath hnot
    have h : ∃ ts, Segment (slotEnd s.mem) oldTail ts (AtfsInode.logTail.get s.mem inode) ∧
        AtfsInode.logTail.get s.mem inode ∉ ts := ⟨ts, hpath, hnot⟩
    rw [dif_pos h, h.choose_spec.1.unique_of_end hpath h.choose_spec.2 hnot]

theorem radixTree_mem (s : State) (inode oldTail : Nat) :
    (radixTree.updateRadixtree s inode oldTail).mem = s.mem := by
  rw [radixTree]
  simp only
  split_ifs <;> rfl

end Atfs
