import Atfs.Allocator.Basic
import Atfs.Log.Append

/-!
# Garbage collection (gc.c)

`gc_log_block` walks over the entries of one log page and cuts the chain of each into runs
of valid and of invalid pages. Every valid run becomes the chain of a new entry at the end
of the log, and the invalid runs are joined into one chain of pages to be freed.
`start_gc_task` unlinks the log pages it selects and hands them to `gc_log_block`.
-/

namespace Atfs

open ByteMemory LinkedChain

/-! ## One log page -/

/-- `entry_invalid_page`; a 64-bit shift takes its distance modulo 64. -/
def entryInvalidPage (m : Memory) (entry idx : Nat) : Bool :=
  FileLogEntry.bitmap.get m entry &&& 1 <<< (idx % 64) != 0

/-- The variables of the loops over a run of pages. -/
structure RunVars where
  j : Nat
  prevNode : Nat
  pageTail : Nat
  /-- How many pages the run has. -/
  count : Nat

/-- The loops over a run of valid or of invalid pages; the first argument bounds the rounds. -/
def walkRun (m : Memory) (logEntry : Nat) (invalid : Bool) : Nat → RunVars → RunVars
  | 0, r => r
  | fuel + 1, r =>
    let numPages := FileLogEntry.numPages.get m logEntry
    if r.j < numPages ∧ entryInvalidPage m logEntry r.j = invalid then
      walkRun m logEntry invalid fuel {
        j := r.j + 1
        prevNode := r.pageTail
        pageTail := if r.j < numPages - 1 then nextNode m r.pageTail else r.pageTail
        count := r.count + 1 }
    else r

/-- The run that starts at page `j` of the entry with the page at `data`. It has at least one
page, so `prev_node` is set before it is used. -/
def runFrom (m : Memory) (logEntry data j : Nat) (invalid : Bool) : RunVars :=
  let pageHead := getNvmPageNodeAddr data
  walkRun m logEntry invalid (FileLogEntry.numPages.get m logEntry - j) ⟨j, pageHead, pageHead, 0⟩

/-- `start_write_off` of the run that starts at page `k`. -/
def runStartWriteOff (m : Memory) (logEntry k : Nat) : Nat :=
  addU64 (FileLogEntry.startWriteOff.get m logEntry &&& pageMask) (k * pageSize)

/-- `end_write_off` of the run that ends before page `j`. -/
def runEndWriteOff (m : Memory) (logEntry j : Nat) : Nat :=
  if j = FileLogEntry.numPages.get m logEntry then FileLogEntry.endWriteOff.get m logEntry
  else addU64 (FileLogEntry.startWriteOff.get m logEntry &&& pageMask) (j * pageSize)

/-- The variables of `gc_log_block` that are carried from run to run. -/
structure GcVars where
  logTail : Nat
  /-- The node `free_head`, or `NULL`. -/
  freeHead : Option Nat
  freeNums : Nat

/-- Where the loop over an entry stands: the next page and its index. -/
structure GcPos where
  data : Nat
  j : Nat

/-- Add the valid pages to a new log entry. -/
def keepRun (A : PageAllocator) (inode logEntry : Nat) (p : GcPos) (g : GcVars) (s : State) :
    Except Fault (GcPos × GcVars × State) := do
  let r := runFrom s.mem logEntry p.data p.j false
  let data := ListNode.nextOffset.get s.mem r.prevNode
  let m := ListNode.nextOffset.set s.mem r.prevNode offsetNull
  let (newEntry, logTail, s) ← getLogEntry A { s with mem := m } g.logTail
  let m := initLogEntry s.mem newEntry p.data (AtfsInode.iSize.get s.mem inode) r.count
    (runStartWriteOff s.mem logEntry p.j) (runEndWriteOff s.mem logEntry r.j)
  .ok (⟨data, r.j⟩, { g with logTail }, { s with mem := m })

/-- Free the invalid pages. -/
def freeRun (logEntry : Nat) (p : GcPos) (g : GcVars) (s : State) : GcPos × GcVars × State :=
  let pageHead := getNvmPageNodeAddr p.data
  let r := runFrom s.mem logEntry p.data p.j true
  let data := ListNode.nextOffset.get s.mem r.prevNode
  let m := ListNode.nextOffset.set s.mem r.prevNode offsetNull
  match g.freeHead with
  | none =>
    (⟨data, r.j⟩, { g with freeHead := some pageHead, freeNums := g.freeNums + r.count },
      { s with mem := m })
  | some freeHead =>
    let m := ListNode.nextOffset.set m r.prevNode (ListNode.nextOffset.get m freeHead)
    let m := ListNode.nextOffset.set m freeHead (ListNode.offset.get m pageHead)
    (⟨data, r.j⟩, { g with freeNums := g.freeNums + r.count }, { s with mem := m })

/-- One round of the loop over the pages of an entry. -/
def gcRound (A : PageAllocator) (inode logEntry : Nat) (p : GcPos) (g : GcVars) (s : State) :
    Except Fault (GcPos × GcVars × State) := do
  let (p, g, s) ←
    if entryInvalidPage s.mem logEntry p.j = false then keepRun A inode logEntry p g s
    else .ok (p, g, s)
  if p.j < FileLogEntry.numPages.get s.mem logEntry ∧
    entryInvalidPage s.mem logEntry p.j = true then
    .ok (freeRun logEntry p g s)
  else .ok (p, g, s)

/-- The loop over the pages of an entry, with a bound on its rounds. -/
def gcPages (A : PageAllocator) (inode logEntry : Nat) :
    Nat → GcPos → GcVars → State → Except Fault (GcVars × State)
  | 0, _, _, _ => .error .outOfFuel
  | fuel + 1, p, g, s =>
    if p.j < FileLogEntry.numPages.get s.mem logEntry then do
      let (p, g, s) ← gcRound A inode logEntry p g s
      gcPages A inode logEntry fuel p g s
    else .ok (g, s)

def gcEntry (A : PageAllocator) (inode logEntry : Nat) (g : GcVars) (s : State) :
    Except Fault (GcVars × State) :=
  gcPages A inode logEntry (FileLogEntry.numPages.get s.mem logEntry + 1)
    ⟨FileLogEntry.data.get s.mem logEntry, 0⟩ g s

/-- The first `i` rounds of the loop over the entries of the log page at `page`. -/
def gcEntries (A : PageAllocator) (inode page : Nat) :
    Nat → GcVars → State → Except Fault (GcVars × State)
  | 0, g, s => .ok (g, s)
  | i + 1, g, s => do
    let (g, s) ← gcEntries A inode page i g s
    -- `i * entry_size` is a `u32`
    gcEntry A inode (page + i * sizeofFileLogEntry % 2 ^ 32) g s

def gcLogBlock (A : PageAllocator) (inode pageNode : Nat) (s : State) : Except Fault State := do
  let page := ListNode.offset.get s.mem pageNode
  let numEntries := ListNode.objCnt.get s.mem pageNode
  let (g, s) ← gcEntries A inode page numEntries ⟨AtfsInode.logTail.get s.mem inode, none, 0⟩ s
  let s := A.freePages s pageNode 1
  match g.freeHead with
  -- `free_pages` writes to the node it is given
  | none => .error .nullPointer
  | some freeHead =>
    let s := A.freePages s freeHead g.freeNums
    .ok { s with mem := updateInodeTail s.mem inode g.logTail }

/-! ## The log of an inode -/

/-- `INVALID_IN_VALID` is 0.5, and the products of the test are exact. -/
def selected (m : Memory) (pageNode : Nat) : Bool :=
  ListNode.objCnt.get m pageNode < 2 * ListNode.invalidCnt.get m pageNode ||
    ListNode.pagesCnt.get m pageNode < 2 * ListNode.invalidPages.get m pageNode

/-- Take a log page out of the chain, by the link of the page before it or by the head of the
log: the page behind it and the memory after. -/
def unlinkLogPage (m : Memory) (inode prevPage pageHead : Nat) : Nat × Memory :=
  let pageNode := getNvmPageNodeAddr pageHead
  let next := ListNode.nextOffset.get m pageNode
  let m :=
    if pageHead = AtfsInode.logHead.get m inode then AtfsInode.logHead.set m inode next
    else ListNode.nextOffset.set m (getNvmPageNodeAddr prevPage) next
  (ListNode.nextOffset.get m pageNode, ListNode.nextOffset.set m pageNode offsetNull)

/-- The loop of `start_gc_task` over the log pages, with a bound on its rounds. -/
def gcLoop (A : PageAllocator) (inode pageTail : Nat) :
    Nat → Nat → Nat → State → Except Fault State
  | 0, _, _, _ => .error .outOfFuel
  | fuel + 1, pageHead, prevPage, s =>
    if pageHead ≠ pageTail then
      let pageNode := getNvmPageNodeAddr pageHead
      if selected s.mem pageNode then do
        let (pageHead, m) := unlinkLogPage s.mem inode prevPage pageHead
        let s ← gcLogBlock A inode pageNode { s with mem := m }
        gcLoop A inode pageTail fuel pageHead prevPage s
      else
        gcLoop A inode pageTail fuel (ListNode.nextOffset.get s.mem pageNode)
          (ListNode.offset.get s.mem pageNode) s
    else .ok s

/-- `start_gc_task` once it has chosen the inode, with a bound on the rounds of its loop. -/
def gcInode (A : PageAllocator) (inode fuel : Nat) (s : State) : Except Fault State :=
  gcLoop A inode (logPageOff (AtfsInode.logTail.get s.mem inode)) fuel
    (AtfsInode.logHead.get s.mem inode) 0 s

end Atfs
