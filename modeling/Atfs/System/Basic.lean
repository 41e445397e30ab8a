import Atfs.Gc.Trigger
import Atfs.Volume.Alloc
import Atfs.Volume.Listing

/-!
# The program as a whole

The threads of the program work in critical sections: under the lock of the superblock they edit the
inode list, under the lock of an inode they run on its file, and the collector wakes up, takes an
inode from the list and collects its log. A step of the system is one such section, of any thread.
Between the sections of one call those of others may come.
-/

namespace Atfs

open ByteMemory LinkedChain LinkedRing

/-- What the region holds, and what the threads are about. -/
structure System where
  state : State
  /-- The inodes put on `sb->s_list`, the last touched one first. -/
  listed : List Nat
  /-- The inodes that creating calls have from `alloc_atfs_inode` and not put on the list yet. -/
  creating : List Nat
  /-- The calls that have touched their inode and not run on its file yet. -/
  entered : List (Nat × Call)
  /-- The inode that the collector has taken from the list and not collected yet. -/
  collecting : Option Nat
  counters : AccessCounters

/-! ## The sections under the lock of the superblock -/

/-- `atfscreat` or `atfsopen`. -/
def ListCall.Creates : ListCall → Prop
  | .atfscreat _ _ _ => True
  | .atfsopen _ _ _ _ => True
  | _ => False

/-- The inode that a creating call has allocated and puts on the list. -/
def ListCall.inserted : ListCall → Option Nat
  | .atfscreat _ lookup alloc =>
    if lookup = offsetNull ∧ alloc ≠ offsetNull then some alloc else none
  | .atfsopen _ lookup alloc flags =>
    if flags &&& InodeList.oCreat ≠ 0 ∧ lookup = offsetNull ∧
      alloc ≠ offsetNull then some alloc else none
  | _ => none

theorem ListCall.recency_creates {c : ListCall} (hcreates : c.Creates) (hc : ¬ c.Reinserts)
    (l : List Nat) :
    c.recency l = c.inserted.elim l (touch l) := by
  cases c with
  | atfscreat fd lookup alloc =>
    rw [ListCall.recency, ListCall.inserted, touchFound]
    by_cases hin : lookup = offsetNull ∧ alloc ≠ offsetNull
    · rw [if_pos hin, if_pos hin.1, if_neg hin.2, Option.elim_some]
    · rw [if_neg hin, Option.elim_none]
      split_ifs <;> tauto
  | atfsopen fd lookup alloc flags =>
    have hnull : flags &&& InodeList.oCreat ≠ 0 → lookup = offsetNull := fun hf => by
      by_contra hne
      exact hc ⟨hne, hf⟩
    rw [ListCall.recency, ListCall.inserted, touchFound]
    by_cases hin : flags &&& InodeList.oCreat ≠ 0 ∧ lookup = offsetNull ∧ alloc ≠ offsetNull
    · rw [if_pos hin, if_neg hin.1, if_pos hin.2.1, if_neg hin.2.2, Option.elim_some]
    · rw [if_neg hin, Option.elim_none]
      split_ifs <;> tauto
  | _ => exact absurd hcreates id

/-- What the lookups and the allocations of the program give to a call. -/
def ListCall.Given (s : System) : ListCall → Prop
  | .atfscreat _ lookup alloc => Found s.listed lookup ∧ (alloc = offsetNull ∨ alloc ∈ s.creating)
  | .atfsopen _ lookup alloc _ => Found s.listed lookup ∧ (alloc = offsetNull ∨ alloc ∈ s.creating)
  | .atfsread lookup => Found s.listed lookup
  | .atfswrite lookup => Found s.listed lookup
  | .atfspread lookup => Found s.listed lookup
  | .atfspwrite lookup => Found s.listed lookup
  | .startGcTask => True

/-- What a call on a file does to the list first; `atfslseek` does nothing to it. -/
def Call.listCall (lookup : Nat) : Call → Option ListCall
  | .read _ _ => some (.atfsread lookup)
  | .write _ _ => some (.atfswrite lookup)
  | .pread _ _ _ => some (.atfspread lookup)
  | .pwrite _ _ _ => some (.atfspwrite lookup)
  | .lseek _ _ => none

/-- The touching calls do the same. -/
theorem Call.listCall_spec {lookup : Nat} {c : Call} {l : ListCall}
    (hl : c.listCall lookup = some l) :
    ¬ l.Reinserts ∧ (∀ s, l.Given s ↔ Found s.listed lookup) ∧
      (∀ xs, l.recency xs = touchFound xs lookup) ∧
      l.inserted = none := by
  cases c <;> simp only [Call.listCall, Option.some.injEq, reduceCtorEq] at hl <;> subst hl <;>
    exact ⟨id, fun _ => Iff.rfl, fun _ => rfl, rfl⟩

/-- `++g_read_times_cnt` or `++g_write_times_cnt`. -/
def AccessCounters.count (c : AccessCounters) : Call → AccessCounters
  | .read _ _ => { c with gReadTimesCnt := addU64 c.gReadTimesCnt 1 }
  | .write _ _ => { c with gWriteTimesCnt := addU64 c.gWriteTimesCnt 1 }
  | .pread _ _ _ => { c with gReadTimesCnt := addU64 c.gReadTimesCnt 1 }
  | .pwrite _ _ _ => { c with gWriteTimesCnt := addU64 c.gWriteTimesCnt 1 }
  | .lseek _ _ => c

namespace System

/-- A call has edited the list. -/
def listStep (s : System) (b : Nat) (c : ListCall) : System :=
  { s with
    state := { s.state with mem := c.exec b s.state.mem }
    listed := c.recency s.listed
    creating := s.creating.diff c.inserted.toList }

/-- A call has touched the inode it has found, and is counted. -/
def enter (s : System) (b lookup : Nat) (c : Call) (l : ListCall) : System :=
  if lookup = offsetNull then s.listStep b l
  else { s.listStep b l with entered := (lookup, c) :: s.entered, counters := s.counters.count c }

/-- The collector has taken an inode. -/
def take (s : System) (b : Nat) (counters : AccessCounters) : System :=
  { s.listStep b .startGcTask with collecting := (InodeList.startGcTask b s.state.mem).1, counters }

/-- The collector has woken up, decided, and taken an inode if it is to collect one. -/
def woken (s : System) (b : Nat) : System :=
  let (counters, runs) := gcTaskThread s.state.mem s.counters
  if runs then s.take b counters else { s with counters }

section Edits

variable (s : System) (b : Nat) (c : ListCall)

@[simp] theorem listStep_listed : (s.listStep b c).listed = c.recency s.listed := rfl

@[simp] theorem listStep_creating : (s.listStep b c).creating = s.creating.diff c.inserted.toList :=
    rfl

theorem enter_of_ne {lookup : Nat} (h : lookup ≠ offsetNull) (e : Call) : s.enter b lookup e c =
    { s.listStep b c with entered := (lookup, e) :: s.entered, counters := s.counters.count e } :=
    if_neg h

theorem take_state (counters : AccessCounters) : (s.take b counters).state =
    (s.listStep b .startGcTask).state := by
  simp only [take]

@[simp] theorem take_collecting (counters : AccessCounters) :
    (s.take b counters).collecting = (InodeList.startGcTask b s.state.mem).1 := by
  simp only [take]

@[simp] theorem take_listed (counters : AccessCounters) :
    (s.take b counters).listed = ListCall.startGcTask.recency s.listed := by
  simp only [take, listStep_listed]

theorem take_entered (counters : AccessCounters) : (s.take b counters).entered = s.entered := by
  simp only [take, listStep]

theorem take_counters (counters : AccessCounters) : (s.take b counters).counters = counters := by
  simp only [take]

@[simp] theorem take_creating (counters : AccessCounters) : (s.take b counters).creating =
    s.creating := by
  simp only [take, listStep_creating, ListCall.inserted, Option.toList_none, List.diff_nil]

/-- A wake-up only looks at the counters, or takes the last inode and clears them. -/
theorem woken_cases : (s.woken b = s ∧ (gcTaskThread s.state.mem s.counters).2 = false) ∨
    s.woken b = s.take b ⟨0, 0⟩ ∧ (gcTaskThread s.state.mem s.counters).2 = true := by
  rw [woken, gcTaskThread_eq]
  split_ifs
  · exact .inr ⟨rfl, rfl⟩
  · exact .inl ⟨rfl, rfl⟩

end Edits

end System

/-! ## The steps -/

inductive SysCall
  | alloc (inode : Nat)
  | create (c : ListCall)
  | enter (lookup : Nat) (c : Call)
  | run (inode : Nat) (c : Call) (a : Answer)
  | invalidate (inode entry pageOff : Nat)
  | wake (picked : Option Nat)
  | collect (inode : Nat)

/-- A section of a call, of the collector or of the index. No call is to run over `2 ^ 64`, no page
with counts left on it is to become the log of a new inode, and the index invalidates the pages that
it has not any more.

`atfsread` and the others count a call once they have let go of the lock under which they touch its
inode, and `gc_task_thread` clears the counters before `start_gc_task` takes that lock. Here the
count comes with the touch (`enter`), and the clearing with the choice of the inode (`wake`). -/
inductive SysStep (b : Nat) (A : PageAllocator) (R : RadixTree) : System → SysCall → System → Prop
  | alloc {s : System} {x : Nat} {t : State} (hclean : CleanAlloc A s.state)
      (halloc : allocAtfsInode A s.state = .ok (x, t)) :
      SysStep b A R s (.alloc x) { s with state := t, creating := x :: s.creating }
  | create {s : System} {c : ListCall} (hcreates : c.Creates) (hgiven : c.Given s) :
      SysStep b A R s (.create c) (s.listStep b c)
  | enter {s : System} {lookup : Nat} {c : Call} {l : ListCall} (hl : c.listCall lookup = some l)
      (hgiven : l.Given s) : SysStep b A R s (.enter lookup c) (s.enter b lookup c l)
  | run {s : System} {i x : Nat} {c : Call} {a : Answer} {t : State}
      (hentered : s.entered[i]? = some (x, c))
      (hfit : (viewOf s.state.mem x).Fits c) (hrun : answerCall A R x s.state c = .ok (a, t)) :
      SysStep b A R s (.run x c a) { s with state := t, entered := s.entered.eraseIdx i }
  | lseek {s : System} {x : Nat} {offset : Int} {whence : Whence} {a : Answer} {t : State}
      (hx : x ∈ s.listed)
      (hfit : (viewOf s.state.mem x).Fits (.lseek offset whence))
      (hrun : answerCall A R x s.state (.lseek offset whence) = .ok (a, t)) :
      SysStep b A R s (.run x (.lseek offset whence) a) { s with state := t }
  | invalidate {s : System} {x T e j q pageOff : Nat} (hx : x ∈ s.listed)
      (hlive : LiveData s.state.mem x T e j q)
      (hpos : invalidatePos s.state.mem e pageOff = j) (hstale : ∀ key, s.state.index x key ≠ q) :
      SysStep b A R s (.invalidate x e pageOff)
        { s with state := { s.state with mem := invalidateOldLogEntry s.state.mem e pageOff } }
  | wake {s : System} (hidle : s.collecting = none) :
      SysStep b A R s (.wake (s.woken b).collecting) (s.woken b)
  | collect {s : System} {x fuel : Nat} {t : State} (hx : s.collecting = some x)
      (hgc : gcInode A x fuel s.state = .ok t) :
      SysStep b A R s (.collect x) { s with state := t, collecting := none }

namespace SysCall

/-- An open with `O_CREAT` of a file that exists. -/
def Reinserts : SysCall → Prop
  | .create c => c.Reinserts
  | _ => False

/-- The inode that comes to the front of the list. -/
def touched : SysCall → Option Nat
  | .create c => c.inserted
  | .enter lookup c => if lookup = offsetNull then none else (c.listCall lookup).map fun _ => lookup
  | .wake picked => picked
  | _ => none

/-- What users see: a new file, or a call that runs and its answer. -/
def event : SysCall → LabelledRun.FamilyEvent Nat (Call × Answer)
  | .alloc x => .make x
  | .run x c a => .act x (c, a)
  | _ => .silent

end SysCall

end Atfs
