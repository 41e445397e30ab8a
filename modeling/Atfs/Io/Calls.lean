import Atfs.Io.Appended

/-!
# The calls on a file

The locked bodies of the five calls of atfsrw.c that work on an inode, against a view of the
file that knows its position and its size. `atfspwrite` sets the size from the position of the
file, not from the offset it has written at, so it follows the view only where that makes no
difference.
-/

namespace Atfs

open ByteMemory LinkedChain

/-! ## The locked bodies (atfsrw.c) -/

/-- `atfsread` between lock and unlock: the value returned, the user's buffer and the state
after. The position moves on even when the read is refused. -/
def atfsread (s : State) (inode : Nat) (buf : Memory) (cnt : Nat) :
    Except Fault (Int × Memory × State) := do
  let (ret, buf) ← nvmioRead s inode buf cnt (AtfsInode.fileOff.get s.mem inode)
  .ok (ret, buf, { s with mem := updateInodeOffset s.mem inode cnt })

/-- `atfspread` between lock and unlock. -/
def atfspread (s : State) (inode : Nat) (buf : Memory) (cnt offset : Nat) :
    Except Fault (Int × Memory × State) := do
  let (ret, buf) ← nvmioRead s inode buf cnt offset
  .ok (ret, buf, s)

/-- `atfspwrite` between lock and unlock. -/
def atfspwrite (A : PageAllocator) (R : RadixTree) (s : State) (inode : Nat) (buf : Memory)
    (cnt offset : Nat) : Except Fault (Nat × State) := do
  let (ret, s) ← nvmioWrite A R s inode buf cnt offset
  .ok (ret, { s with mem := updateInodeSize s.mem inode cnt })

/-- A call on the file. -/
inductive Call
  | write (buf : Memory) (cnt : Nat)
  | pwrite (buf : Memory) (cnt offset : Nat)
  | read (buf : Memory) (cnt : Nat)
  | pread (buf : Memory) (cnt offset : Nat)
  | lseek (offset : Int) (whence : Whence)

/-- The state after a call. -/
def runCall (A : PageAllocator) (R : RadixTree) (inode : Nat) (s : State) :
    Call → Except Fault State
  | .write buf cnt => do
    let (_, s) ← atfswrite A R s inode buf cnt
    .ok s
  | .pwrite buf cnt offset => do
    let (_, s) ← atfspwrite A R s inode buf cnt offset
    .ok s
  | .read buf cnt => do
    let (_, _, s) ← atfsread s inode buf cnt
    .ok s
  | .pread buf cnt offset => do
    let (_, _, s) ← atfspread s inode buf cnt offset
    .ok s
  | .lseek offset whence => .ok (atfslseek s inode offset whence).2

def runCalls (A : PageAllocator) (R : RadixTree) (inode : Nat) :
    State → List Call → Except Fault State
  | s, [] => .ok s
  | s, c :: cs => do
    let s ← runCall A R inode s c
    runCalls A R inode s cs

/-! ## The view of a file -/

/-- What the calls should make of a file. -/
@[ext] structure FileView where
  pos : Nat
  size : Nat

namespace FileView

/-- Where a seek goes. -/
def target (v : FileView) (offset : Int) : Whence → Option Int
  | .seekSet => some offset
  | .seekCur => some (v.pos + offset)
  | .seekEnd => some (v.size + offset)
  | .other => none

/-- The end of the range a call writes: its offset and its number of bytes. -/
def writeEnd (v : FileView) : Call → Option Nat
  | .write _ cnt => some (v.pos + cnt)
  | .pwrite _ cnt offset => some (offset + cnt)
  | _ => none

def step (v : FileView) : Call → FileView
  | .write _ cnt => ⟨v.pos + cnt, max v.size (v.pos + cnt)⟩
  | .pwrite _ cnt offset => ⟨v.pos, max v.size (offset + cnt)⟩
  | .read _ cnt => ⟨v.pos + cnt, v.size⟩
  | .pread _ _ _ => v
  | .lseek offset whence => ⟨((v.target offset whence).getD v.pos).toNat, v.size⟩

/-- The ends of all the ranges that a run of calls writes. -/
def writeEnds : FileView → List Call → List Nat
  | _, [] => []
  | v, c :: cs => (v.writeEnd c).toList ++ writeEnds (v.step c) cs

/-- The call wraps nowhere and seeks to no negative position. -/
def Fits (v : FileView) : Call → Prop
  | .write _ cnt => v.pos + cnt < 2 ^ 64
  | .pwrite _ cnt offset => offset + cnt < 2 ^ 64
  | .read _ cnt => v.pos + cnt < 2 ^ 64
  | .pread _ cnt offset => offset + cnt < 2 ^ 64
  | .lseek offset whence => ∀ p ∈ v.target offset whence, 0 ≤ p ∧ p < 2 ^ 64

/-- A write of `cnt` bytes leaves the same size whether it ends behind the position of the file
or behind `offset`. -/
def SizedAlike (v : FileView) (cnt offset : Nat) : Prop :=
  max v.size (addU64 v.pos cnt) = max v.size (offset + cnt)

instance (v : FileView) (cnt offset : Nat) : Decidable (v.SizedAlike cnt offset) :=
  inferInstanceAs (Decidable (_ = _))

/-- The call, if it is a positional write, leaves the size it should. -/
def Agrees (v : FileView) : Call → Prop
  | .pwrite _ cnt offset => v.SizedAlike cnt offset
  | _ => True

/-- Every call of a run, made where the run has led to, satisfies `P`. -/
def Always (P : FileView → Call → Prop) : FileView → List Call → Prop
  | _, [] => True
  | v, c :: cs => P v c ∧ Always P (v.step c) cs

theorem size_step (v : FileView) (c : Call) :
    (v.step c).size = (v.writeEnd c).toList.foldl max v.size := by
  cases c <;> rfl

/-- The size is the maximum over all the writes. -/
theorem size_steps (v : FileView) (cs : List Call) :
    (cs.foldl step v).size = (writeEnds v cs).foldl max v.size := by
  induction cs generalizing v with
  | nil => rfl
  | cons c cs ih => rw [List.foldl_cons, ih, size_step, writeEnds, List.foldl_append]

end FileView

namespace FileView

theorem Always.take {P : FileView → Call → Prop} {v : FileView} {cs : List Call} (h : Always P v cs)
    (n : Nat) : Always P v (cs.take n) := by
  induction cs generalizing v n with
  | nil => simpa using h
  | cons c cs ih =>
    cases n with
    | zero => trivial
    | succ n => exact ⟨h.1, ih h.2 n⟩

end FileView

/-- The position and the size in an inode. -/
def viewOf (m : Memory) (inode : Nat) : FileView where
  pos := AtfsInode.fileOff.get m inode
  size := AtfsInode.iSize.get m inode

theorem viewOf_pos (m : Memory) (inode : Nat) :
    (viewOf m inode).pos = AtfsInode.fileOff.get m inode := rfl

theorem viewOf_size (m : Memory) (inode : Nat) :
    (viewOf m inode).size = AtfsInode.iSize.get m inode := rfl

/-- The newest entry of the log of an inode: the one that ends at its tail. -/
def newestEntry (m : Memory) (inode : Nat) : Nat :=
  AtfsInode.logTail.get m inode - sizeofFileLogEntry

/-! ## One call -/

/-- The newest entry of the log is the last one handed out, and records the size in the inode. -/
structure Newest (f : Frontier) (s : State) (inode : Nat) : Prop where
  room : f.page + 48 ≤ f.tail
  size : FileLogEntry.fileSize.get s.mem (f.tail - 48) = AtfsInode.iSize.get s.mem inode
  last : (entriesOf s.trace).getLast? = some (f.tail - 48)

section Call

variable {A : PageAllocator} {R : RadixTree} {f : Frontier} {s s' : State} {buf m : Memory}
  {inode cnt offset ret : Nat} {c : Call}

/-- `update_inode_size` takes the end of the range from the position of the file. -/
theorem updateInodeSize_spec (m : Memory) (inode cnt : Nat) :
    ChangesOnly (infoBytes inode) m (updateInodeSize m inode cnt) ∧
      viewOf (updateInodeSize m inode cnt) inode = ⟨AtfsInode.fileOff.get m inode,
        max (AtfsInode.iSize.get m inode) (addU64 (AtfsInode.fileOff.get m inode) cnt)⟩ := by
  generalize hend : addU64 (AtfsInode.fileOff.get m inode) cnt = stop
  have hlt : stop < 2 ^ 64 := hend ▸ addU64_lt _ _
  by_cases h : stop > AtfsInode.iSize.get m inode
  · have hset : updateInodeSize m inode cnt = AtfsInode.iSize.set m inode stop := by
      simp only [updateInodeSize, hend, if_pos h]
    rw [hset, max_eq_right h.le]
    refine ⟨(AtfsInode.iSize.changesOnly_set m inode _).mono Set.subset_union_left, ?_⟩
    exact FileView.ext (Field.get_set_of_disjoint _ _ _ (.inr (by simp)))
      (Field.get_set_self_of_lt _ _ hlt)
  · have hsame : updateInodeSize m inode cnt = m := by
      simp only [updateInodeSize, hend, if_neg h]
    rw [hsame, max_eq_left (not_lt.1 h)]
    exact ⟨ChangesOnly.refl _ _, rfl⟩

theorem updateInodeOffset_spec (hb : AtfsInode.fileOff.get m inode + cnt < 2 ^ 64) :
    ChangesOnly (infoBytes inode) m (updateInodeOffset m inode cnt) ∧
      viewOf (updateInodeOffset m inode cnt) inode =
        ⟨AtfsInode.fileOff.get m inode + cnt, AtfsInode.iSize.get m inode⟩ := by
  refine ⟨changesOnly_fileOff m inode _, ?_⟩
  ext
  · exact Field.get_set_self_of_lt _ _ hb
  · exact Field.get_set_of_disjoint _ _ _ (.inl (by simp))

/-- `update_inode_info` moves the position behind the write first. -/
theorem updateInodeInfo_view (hb : AtfsInode.fileOff.get m inode + cnt < 2 ^ 64) :
    ChangesOnly (infoBytes inode) m (updateInodeInfo m inode cnt) ∧
      viewOf (updateInodeInfo m inode cnt) inode = ⟨AtfsInode.fileOff.get m inode + cnt,
        max (AtfsInode.iSize.get m inode) (AtfsInode.fileOff.get m inode + cnt)⟩ := by
  obtain ⟨hoff, hview⟩ := updateInodeOffset_spec hb
  obtain ⟨hsize, hview'⟩ := updateInodeSize_spec (updateInodeOffset m inode cnt) inode 0
  have hpos : AtfsInode.fileOff.get (updateInodeOffset m inode cnt) inode =
      AtfsInode.fileOff.get m inode + cnt := by rw [← viewOf_pos, hview]
  have hold : AtfsInode.iSize.get (updateInodeOffset m inode cnt) inode =
      AtfsInode.iSize.get m inode := by rw [← viewOf_size, hview]
  rw [hpos, hold, addU64_of_lt (by omega), Nat.add_zero] at hview'
  rw [updateInodeInfo]
  exact ⟨hoff.trans hsize, hview'⟩

/-- Setting the position of the inode leaves the newest entry the newest. -/
theorem Newest.info (h : Newest f s inode) (hr : Ready A f s inode) {m' : Memory}
    (hm : ChangesOnly (infoBytes inode) s.mem m')
    (hsize : AtfsInode.iSize.get m' inode = AtfsInode.iSize.get s.mem inode) :
    Newest f { s with mem := m' } inode := by
  obtain ⟨p, hp⟩ := hr.inodePage
  have hle := hr.holds.tail_le
  have hroom := h.room
  refine ⟨hroom, ?_, h.last⟩
  rw [hsize, ← h.size]
  refine Field.get_congr fun a ha => hm a ?_
  refine hp.infoBytes_apart hr.holds.isPage (fun hc => hp.2.2.1 hc.symm) ?_
  have := FileLogEntry.fileSize.fits
  rw [Field.bytes, Set.mem_Ico] at ha
  rw [mem_pageBytes]
  omega

/-- A write whose size the inode takes over leaves its last entry the newest. -/
theorem Appended.newest_info {f' : Frontier} {es : List LogEntry}
    (ha : Appended A inode cnt offset f f' s s' es) (hr : Ready A f s inode) {m' : Memory}
    (hm : ChangesOnly (infoBytes inode) s'.mem m')
    (hsize : AtfsInode.iSize.get m' inode = max (AtfsInode.iSize.get s.mem inode) (offset + cnt)) :
    Newest f' { s' with mem := m' } inode := by
  have hr' := hr.append ha
  obtain ⟨p, hp⟩ := hr'.inodePage
  obtain ⟨E, hE, hpage, htail, hrec⟩ := ha.newest
  have hslot : f'.tail - 48 = E.off := by omega
  have hle := hr'.holds.tail_le
  refine ⟨by omega, ?_, ?_⟩
  · rw [hsize, ← hrec, ← (ha.stored E (List.mem_of_getLast? hE)).words.fileSize, hslot]
    refine Field.get_congr fun a ha => hm a ?_
    refine hp.infoBytes_apart hr'.holds.isPage (fun hc => hp.2.2.1 hc.symm) ?_
    have := FileLogEntry.fileSize.fits
    rw [Field.bytes, Set.mem_Ico] at ha
    rw [mem_pageBytes]
    omega
  · rw [hslot]
    simp only [ha.trace, List.getLast?_append, List.getLast?_map, hE]
    rfl

variable (s inode) in
/-- A seek only sets the position. -/
theorem atfslseek_view {offset : Int} {whence : Whence}
    (hfit : (viewOf s.mem inode).Fits (.lseek offset whence)) : ∃ m',
      (atfslseek s inode offset whence).2 = { s with mem := m' } ∧
      ChangesOnly (infoBytes inode) s.mem m' ∧
      viewOf m' inode = (viewOf s.mem inode).step (.lseek offset whence) := by
  have set (p : Int) (hp : 0 ≤ p ∧ p < 2 ^ 64) : ChangesOnly (infoBytes inode) s.mem
      (AtfsInode.fileOff.set s.mem inode (p % 2 ^ 64).toNat) ∧
      viewOf (AtfsInode.fileOff.set s.mem inode (p % 2 ^ 64).toNat) inode =
        ⟨p.toNat, AtfsInode.iSize.get s.mem inode⟩ := by
    have hmod : (p % 2 ^ 64).toNat = p.toNat := by omega
    rw [hmod]
    refine ⟨changesOnly_fileOff _ _ _, FileView.ext ?_ ?_⟩
    · exact Field.get_set_self_of_lt _ _ (show p.toNat < 2 ^ 64 by omega)
    · exact Field.get_set_of_disjoint _ _ _ (.inl (by simp))
  cases whence with
  | seekSet => exact ⟨_, rfl, set _ (hfit _ rfl)⟩
  | seekCur => exact ⟨_, rfl, set _ (hfit _ rfl)⟩
  | seekEnd => exact ⟨_, rfl, set _ (hfit _ rfl)⟩
  | other => exact ⟨s.mem, rfl, ChangesOnly.refl _ _, rfl⟩

/-- Setting the position of the inode, as all calls that write no bytes do. -/
theorem Ready.setPos (h : Ready A f s inode) {m' : Memory} {v : FileView}
    (hm : ChangesOnly (infoBytes inode) s.mem m') (hview : viewOf m' inode = v)
    (hsize : v.size = AtfsInode.iSize.get s.mem inode) :
    Ready A f { s with mem := m' } inode ∧
      (Newest f s inode → Newest f { s with mem := m' } inode) :=
  ⟨h.info hm, fun hn => hn.info h hm (by rw [← viewOf_size, hview, hsize])⟩

theorem Ready.atfswrite (h : Ready A f s inode)
    (hb : AtfsInode.fileOff.get s.mem inode + cnt < 2 ^ 64)
    (hrun : atfswrite A R s inode buf cnt = .ok (ret, s')) :
    ∃ f', Ready A f' s' inode ∧ viewOf s'.mem inode = (viewOf s.mem inode).step (.write buf cnt) ∧
      Newest f' s' inode := by
  rw [Atfs.atfswrite] at hrun
  obtain ⟨⟨ret₁, s₁⟩, hwrite, hrun⟩ := bind_eq_ok.1 hrun
  simp only [Except.ok.injEq, Prod.mk.injEq] at hrun
  obtain ⟨-, rfl⟩ := hrun
  obtain ⟨-, f', es, ha⟩ := h.appended hb hwrite
  have hpos := ha.inodeField h AtfsInode.fileOff (by decide)
  have hold := ha.inodeField h AtfsInode.iSize (by decide)
  obtain ⟨hinfo, hview⟩ := updateInodeInfo_view
    (show AtfsInode.fileOff.get s₁.mem inode + cnt < 2 ^ 64 from hpos ▸ hb)
  rw [hpos, hold] at hview
  refine ⟨f', (h.append ha).info hinfo, ?_, ha.newest_info h hinfo ?_⟩
  · rw [hview, FileView.step, viewOf_pos, viewOf_size]
  · rw [← viewOf_size, hview]

/-- A positional write leaves the size that the position of the file says. -/
theorem Ready.atfspwrite (h : Ready A f s inode) (hb : offset + cnt < 2 ^ 64)
    (hrun : atfspwrite A R s inode buf cnt offset = .ok (ret, s')) :
    ∃ f' es s₁, Appended A inode cnt offset f f' s s₁ es ∧
      s' = { s₁ with mem := updateInodeSize s₁.mem inode cnt } ∧ Ready A f' s' inode ∧
      viewOf s'.mem inode = ⟨AtfsInode.fileOff.get s.mem inode,
        max (AtfsInode.iSize.get s.mem inode) (addU64 (AtfsInode.fileOff.get s.mem inode) cnt)⟩ ∧
      ((viewOf s.mem inode).SizedAlike cnt offset → Newest f' s' inode) := by
  rw [Atfs.atfspwrite] at hrun
  obtain ⟨⟨ret₁, s₁⟩, hwrite, hrun⟩ := bind_eq_ok.1 hrun
  simp only [Except.ok.injEq, Prod.mk.injEq] at hrun
  obtain ⟨-, rfl⟩ := hrun
  obtain ⟨-, f', es, ha⟩ := h.appended hb hwrite
  obtain ⟨hinfo, hview⟩ := updateInodeSize_spec s₁.mem inode cnt
  rw [ha.inodeField h AtfsInode.fileOff (by decide), ha.inodeField h AtfsInode.iSize (by decide)]
    at hview
  refine ⟨f', es, s₁, ha, rfl, (h.append ha).info hinfo, hview, fun hsize => ?_⟩
  refine ha.newest_info h hinfo ?_
  rw [← viewOf_size, hview]
  exact hsize

/-- A call follows the view of the file. -/
theorem Ready.runCall (h : Ready A f s inode) (hfit : (viewOf s.mem inode).Fits c)
    (hag : (viewOf s.mem inode).Agrees c) (hrun : runCall A R inode s c = .ok s') :
    ∃ f', Ready A f' s' inode ∧ viewOf s'.mem inode = (viewOf s.mem inode).step c ∧
      (Newest f s inode ∨ (viewOf s.mem inode).writeEnd c ≠ none → Newest f' s' inode) := by
  cases c with
  | write buf cnt =>
    rw [Atfs.runCall] at hrun
    obtain ⟨⟨ret, t⟩, hwrite, hrun⟩ := bind_eq_ok.1 hrun
    obtain rfl : t = s' := by simpa using hrun
    obtain ⟨f', hready, hview, hnew⟩ := h.atfswrite hfit hwrite
    exact ⟨f', hready, hview, fun _ => hnew⟩
  | pwrite buf cnt offset =>
    rw [Atfs.runCall] at hrun
    obtain ⟨⟨ret, t⟩, hwrite, hrun⟩ := bind_eq_ok.1 hrun
    obtain rfl : t = s' := by simpa using hrun
    obtain ⟨f', es, s₁, -, -, hready, hview, hnew⟩ := h.atfspwrite hfit hwrite
    refine ⟨f', hready, hview.trans ?_, fun _ => hnew hag⟩
    exact FileView.ext rfl hag
  | read buf cnt =>
    rw [Atfs.runCall] at hrun
    obtain ⟨⟨ret, rbuf, t⟩, hread, hrun⟩ := bind_eq_ok.1 hrun
    obtain rfl : t = s' := by simpa using hrun
    rw [atfsread] at hread
    obtain ⟨⟨ret', rbuf'⟩, -, hread⟩ := bind_eq_ok.1 hread
    simp only [Except.ok.injEq, Prod.mk.injEq] at hread
    obtain ⟨-, -, rfl⟩ := hread
    obtain ⟨hinfo, hview⟩ := updateInodeOffset_spec hfit
    obtain ⟨hready, hnew⟩ := h.setPos hinfo hview rfl
    exact ⟨f, hready, hview, fun hc => hnew (hc.resolve_right fun hc => hc rfl)⟩
  | pread buf cnt offset =>
    rw [Atfs.runCall] at hrun
    obtain ⟨⟨ret, rbuf, t⟩, hread, hrun⟩ := bind_eq_ok.1 hrun
    obtain rfl : t = s' := by simpa using hrun
    rw [atfspread] at hread
    obtain ⟨⟨ret', rbuf'⟩, -, hread⟩ := bind_eq_ok.1 hread
    simp only [Except.ok.injEq, Prod.mk.injEq] at hread
    obtain ⟨-, -, rfl⟩ := hread
    exact ⟨f, h, rfl, fun hc => hc.resolve_right fun hc => hc rfl⟩
  | lseek offset whence =>
    obtain rfl : (atfslseek s inode offset whence).2 = s' := by simpa [Atfs.runCall] using hrun
    obtain ⟨m', hseek, hinfo, hview⟩ := atfslseek_view s inode hfit
    obtain ⟨hready, hnew⟩ := h.setPos hinfo hview rfl
    rw [hseek]
    exact ⟨f, hready, hview, fun hc => hnew (hc.resolve_right fun hc => hc rfl)⟩

/-! ## Positional and sequential writes -/

/-- Two entries say the same of the pages they own. -/
structure LogEntry.Alike (E E' : LogEntry) : Prop where
  length : E.pages.length = E'.pages.length
  fileSize : E.fileSize = E'.fileSize
  startWriteOff : E.startWriteOff = E'.startWriteOff
  endWriteOff : E.endWriteOff = E'.endWriteOff
  invalidPages : E.invalidPages = E'.invalidPages
  bitmap : E.bitmap = E'.bitmap

/-- The calls that led from `s` to `t` and to `t'` have left the same size, log and index. The
allocator may have handed out other pages; where it has not, the new entries and the index are
equal. `file_off` is not compared. -/
structure SameFile (f : Frontier) (s t t' : State) (inode : Nat) : Prop where
  size : AtfsInode.iSize.get t.mem inode = AtfsInode.iSize.get t'.mem inode
  /-- The other fields of the inode, but for `file_off` and the tail. -/
  fields : ∀ g : Field 216, (g.off + g.size ≤ 8 ∨ 16 ≤ g.off ∧ g.off + g.size ≤ 64 ∨ 80 ≤ g.off) →
    g.get t.mem inode = g.get t'.mem inode
  kept : ∀ a, (∃ p, IsPage p ∧ p ∉ f.free ∧ p ≠ f.page ∧ a ∈ pageBytes p) ∨
    f.page ≤ a ∧ a < f.tail → a ∉ inodeBytes inode → t.mem a = t'.mem a
  log : ∃ es es', entriesOf t.trace = entriesOf s.trace ++ es.map (·.off) ∧
    entriesOf t'.trace = entriesOf s.trace ++ es'.map (·.off) ∧
    (∀ E ∈ es, E.Stored t.mem) ∧ (∀ E ∈ es', E.Stored t'.mem) ∧
    (∃ E E', es.getLast? = some E ∧ es'.getLast? = some E' ∧
      AtfsInode.logTail.get t.mem inode = E.off + 48 ∧
      AtfsInode.logTail.get t'.mem inode = E'.off + 48) ∧
    List.Forall₂ LogEntry.Alike es es' ∧
    (∀ key, t.index inode key = s.index inode key ∧ t'.index inode key = s.index inode key ∨
      ∃ i q q' : Nat, (pagesOf es)[i]? = some q ∧ (pagesOf es')[i]? = some q' ∧
        t.index inode key = q ∧ t'.index inode key = q') ∧
    (es.map (·.off) = es'.map (·.off) → es.map (·.pages) = es'.map (·.pages) →
      es = es' ∧ t.index = t'.index)

/-- What the chunks of a write say does not depend on the pages handed out. -/
theorem Chunks.alike {v : WriteVars} {es es' : List LogEntry} (h : Chunks v es) {u t : Nat}
    (h' : Chunks { v with userBuf := u, logTail := t } es') :
    List.Forall₂ LogEntry.Alike es es' := by
  induction h generalizing u t es' with
  | done hv =>
    cases h' with
    | done => exact .nil
    | chunk _ _ pos => exact absurd hv (Nat.pos_iff_ne_zero.1 pos)
  | chunk userBuf logTail pos length startWriteOff endWriteOff fileSize valid rest ih =>
    cases h' with
    | done hv => exact absurd hv (Nat.pos_iff_ne_zero.1 pos)
    | chunk userBuf' logTail' pos' length' startWriteOff' endWriteOff' fileSize' valid' rest' =>
      exact .cons ⟨length.trans length'.symm, fileSize.trans fileSize'.symm,
        startWriteOff.trans startWriteOff'.symm, endWriteOff.trans endWriteOff'.symm,
        valid.1.trans valid'.1.symm, valid.2.trans valid'.2.symm⟩ (ih rest')

theorem LogEntry.Alike.eq {E E' : LogEntry} (h : E.Alike E') (hoff : E.off = E'.off)
    (hpages : E.pages = E'.pages) : E = E' := by
  cases E
  cases E'
  obtain ⟨-, h1, h2, h3, h4, h5⟩ := h
  simp only at *
  subst hoff hpages h1 h2 h3 h4 h5
  rfl

/-- Alike entries with the same pages in the same places are the same. -/
theorem alike_eq {es es' : List LogEntry} (h : List.Forall₂ LogEntry.Alike es es')
    (hoff : es.map (·.off) = es'.map (·.off)) (hpages : es.map (·.pages) = es'.map (·.pages)) :
    es = es' := by
  induction h with
  | nil => rfl
  | cons head rest ih =>
    simp only [List.map_cons, List.cons.injEq] at hoff hpages
    rw [head.eq hoff.1 hpages.1, ih hoff.2 hpages.2]

theorem length_pagesOf_alike {es es' : List LogEntry} (h : List.Forall₂ LogEntry.Alike es es') :
    (pagesOf es).length = (pagesOf es').length := by
  induction h with
  | nil => rfl
  | cons head rest ih =>
    rw [pagesOf_cons, pagesOf_cons, List.length_append, List.length_append, head.length, ih]

/-- The bytes of the inode that a write sets. -/
theorem infoBytes_subset : infoBytes inode ∪ AtfsInode.logTail.bytes inode ⊆ inodeBytes inode := by
  intro a ha
  simp only [infoBytes, Field.bytes, AtfsInode.iSize_off, AtfsInode.iSize_size,
    AtfsInode.fileOff_off, AtfsInode.fileOff_size, AtfsInode.logTail_off, AtfsInode.logTail_size,
    Set.mem_union, Set.mem_Ico] at ha
  rw [inodeBytes, Set.mem_Ico]
  omega

theorem field_info {m m' : Memory} (hm : ChangesOnly (infoBytes inode) m m') {g : Field 216}
    (hg : g.off + g.size ≤ 8 ∨ 16 ≤ g.off ∧ g.off + g.size ≤ 64 ∨ 80 ≤ g.off) :
    g.get m' inode = g.get m inode := by
  refine Field.get_congr fun a ha => hm a fun hc => ?_
  simp only [infoBytes, Field.bytes, AtfsInode.iSize_off, AtfsInode.iSize_size,
    AtfsInode.fileOff_off, AtfsInode.fileOff_size, Set.mem_union, Set.mem_Ico] at ha hc
  omega

/-- From `s` to `t` a write of `cnt` bytes at `offset` has appended the entries `es`, with the
position and the size of the inode set before it and behind it. -/
structure Wrote (A : PageAllocator) (inode cnt offset : Nat) (f f' : Frontier) (s t : State)
    (es : List LogEntry) : Prop where
  kept : ∀ a, (∃ p, IsPage p ∧ p ∉ f.free ∧ p ≠ f.page ∧ a ∈ pageBytes p) ∨
    f.page ≤ a ∧ a < f.tail → a ∉ inodeBytes inode → t.mem a = s.mem a
  fields : ∀ g : Field 216, (g.off + g.size ≤ 8 ∨ 16 ≤ g.off ∧ g.off + g.size ≤ 64 ∨ 80 ≤ g.off) →
    g.get t.mem inode = g.get s.mem inode
  stored : ∀ E ∈ es, E.Stored t.mem
  chunks : Chunks (writeVars s.mem inode cnt offset) es
  newest : ∃ E, es.getLast? = some E ∧ AtfsInode.logTail.get t.mem inode = E.off + 48
  trace : entriesOf t.trace = entriesOf s.trace ++ es.map (·.off)
  other : ∀ i, i ≠ inode → t.index i = s.index i
  inside : ∀ i q key, (pagesOf es)[i]? = some q → key = firstPage offset + 4096 * i →
    t.index inode key = q
  outside : ∀ key, (∀ i < (pagesOf es).length, key ≠ firstPage offset + 4096 * i) →
    t.index inode key = s.index inode key

theorem writeVars_congr {m m' : Memory}
    (h : AtfsInode.logTail.get m' inode = AtfsInode.logTail.get m inode)
    (h' : AtfsInode.iSize.get m' inode = AtfsInode.iSize.get m inode) :
    writeVars m' inode cnt offset = writeVars m inode cnt offset := by
  rw [writeVars, writeVars, h, h']

theorem Appended.wrote {f' : Frontier} {es : List LogEntry} {m m' : Memory}
    (ha : Appended A inode cnt offset f f' { s with mem := m } s' es)
    (hr : Ready A f { s with mem := m } inode) (hm : ChangesOnly (infoBytes inode) s.mem m)
    (hsize : AtfsInode.iSize.get m inode = AtfsInode.iSize.get s.mem inode)
    (hm' : ChangesOnly (infoBytes inode) s'.mem m') :
    Wrote A inode cnt offset f f' s { s' with mem := m' } es := by
  obtain ⟨ts, hstep⟩ := ha.frame
  obtain ⟨E, hE, -, htail, -⟩ := ha.newest
  refine ⟨fun a hused hout => ?_, fun g hg => ?_, fun E hE => ?_, ?_, ⟨E, hE, ?_⟩,
    ha.trace, ha.other, ha.inside, ha.outside⟩
  · have hinfo : a ∉ infoBytes inode := fun hc => hout (infoBytes_subset (.inl hc))
    have htail : a ∉ AtfsInode.logTail.bytes inode := fun hc => hout (infoBytes_subset (.inr hc))
    refine (hm' a hinfo).trans (Eq.trans ?_ (hm a hinfo))
    rcases hused with ⟨q, hq, hqF, hqT, hmem⟩ | htail'
    · exact hstep.keeps hr.holds hq hqF hqT hmem htail
    · exact hstep.keeps_tail hr.holds (.inl htail') htail
  · exact (field_info hm' hg).trans ((ha.inodeField hr g (by omega)).trans (field_info hm hg))
  · obtain ⟨p, hp⟩ := hr.inodePage
    have apart (q a : Nat) (hq : IsPage q) (horig : q = f.page ∨ q ∈ f.free)
      (ha : a ∈ pageBytes q) :
        m' a = s'.mem a := by
      refine hm' a (hp.infoBytes_apart hq ?_ ha)
      rintro rfl
      exact horig.elim hp.2.2.1 hp.2.1
    obtain ⟨T, hT, horig, hle, hle'⟩ := ha.place E hE
    refine (ha.stored E hE).congr (fun a ha => apart T a hT horig ?_) fun q hq a hmem =>
      apart q a ((ha.stored E hE).chain.page q hq)
        (.inr (ha.fresh q (mem_pagesOf.2 ⟨E, hE, hq⟩)).1) ?_
    · rw [Set.mem_Ico] at ha
      rw [mem_pageBytes]
      omega
    · rw [Set.mem_Ico] at hmem
      rw [mem_pageBytes]
      omega
  · rw [← writeVars_congr (logTail_congr hm) hsize]
    exact ha.chunks
  · exact (logTail_congr hm').trans (ha.tail.trans htail)

/-- Two writes of one request agree in all but the pages handed out. -/
theorem Wrote.sameFile {f₁ f₂ : Frontier} {t t' : State} {es es' : List LogEntry}
    (h : Wrote A inode cnt offset f f₁ s t es) (h' : Wrote A inode cnt offset f f₂ s t' es')
    (hsize : AtfsInode.iSize.get t.mem inode = AtfsInode.iSize.get t'.mem inode) :
    SameFile f s t t' inode := by
  have halike : List.Forall₂ LogEntry.Alike es es' := h.chunks.alike h'.chunks
  have hlen := length_pagesOf_alike halike
  have hindex : ∀ key, t.index inode key = s.index inode key ∧
    t'.index inode key = s.index inode key ∨
      ∃ i q q' : Nat, (pagesOf es)[i]? = some q ∧ (pagesOf es')[i]? = some q' ∧
        t.index inode key = q ∧ t'.index inode key = q' := by
    intro key
    by_cases hin : ∃ i < (pagesOf es).length, key = firstPage offset + 4096 * i
    · obtain ⟨i, hi, hkey⟩ := hin
      have hq := List.getElem?_eq_getElem hi
      have hq' := List.getElem?_eq_getElem (hlen ▸ hi)
      exact .inr ⟨i, _, _, hq, hq', h.inside i _ key hq hkey, h'.inside i _ key hq' hkey⟩
    · exact .inl ⟨h.outside key fun i hi hc => hin ⟨i, hi, hc⟩,
        h'.outside key fun i hi hc => hin ⟨i, hlen ▸ hi, hc⟩⟩
  obtain ⟨E, hE, htail⟩ := h.newest
  obtain ⟨E', hE', htail'⟩ := h'.newest
  refine ⟨hsize, fun g hg => (h.fields g hg).trans (h'.fields g hg).symm,
    fun a hused hout => (h.kept a hused hout).trans (h'.kept a hused hout).symm,
    es, es', h.trace, h'.trace, h.stored, h'.stored, ⟨E, E', hE, hE', htail, htail'⟩,
    halike, hindex, fun hoff hpages => ?_⟩
  obtain rfl := alike_eq halike hoff hpages
  refine ⟨rfl, funext fun i => ?_⟩
  by_cases hi : i = inode
  · subst hi
    funext key
    rcases hindex key with ⟨h1, h2⟩ | ⟨k, q, q', hq, hq', h1, h2⟩
    · rw [h1, h2]
    · rw [h1, h2, Option.some.inj (hq.symm.trans hq')]
  · rw [h.other i hi, h'.other i hi]

/-- What a seek to `offset` and a sequential write leave. -/
theorem Ready.seekWrite {t : State} (h : Ready A f s inode) (hb : offset + cnt < 2 ^ 64)
    (hrun : Atfs.seekWrite A R inode s ⟨buf, cnt, offset⟩ = .ok t) :
    ∃ f' es, Wrote A inode cnt offset f f' s t es ∧ viewOf t.mem inode =
      ⟨offset + cnt, max (AtfsInode.iSize.get s.mem inode) (offset + cnt)⟩ := by
  obtain ⟨ret, t₁, hwrite, rfl⟩ := (seekWrite_ok hb).1 hrun
  have hseek := changesOnly_fileOff s.mem inode offset
  have hsize : AtfsInode.iSize.get (AtfsInode.fileOff.set s.mem inode offset) inode =
      AtfsInode.iSize.get s.mem inode := Field.get_set_of_disjoint _ _ _ (.inl (by simp))
  have hpos : AtfsInode.fileOff.get (AtfsInode.fileOff.set s.mem inode offset) inode = offset :=
    Field.get_set_self_of_lt _ _ (show offset < 2 ^ 64 by omega)
  simp only at hwrite
  generalize AtfsInode.fileOff.set s.mem inode offset = m at *
  have h' := h.info hseek
  obtain ⟨-, f', es, ha⟩ := h'.appended hb hwrite
  have hpos' := (ha.inodeField h' AtfsInode.fileOff (by decide)).trans hpos
  have hsize' := (ha.inodeField h' AtfsInode.iSize (by decide)).trans hsize
  obtain ⟨hinfo, hview⟩ := updateInodeInfo_view
    (show AtfsInode.fileOff.get t₁.mem inode + cnt < 2 ^ 64 by rw [hpos']; exact hb)
  rw [hpos', hsize'] at hview
  generalize updateInodeInfo t₁.mem inode cnt = m₁ at *
  exact ⟨f', es, ha.wrote h' hseek hsize hinfo, hview⟩

/-- A positional write leaves what a seek and a write leave, exactly where the sizes agree. -/
theorem Ready.sameFile_iff {t t' : State} (h : Ready A f s inode) (hb : offset + cnt < 2 ^ 64)
    (hp : Atfs.atfspwrite A R s inode buf cnt offset = .ok (ret, t))
    (hw : Atfs.seekWrite A R inode s ⟨buf, cnt, offset⟩ = .ok t') :
    SameFile f s t t' inode ↔ (viewOf s.mem inode).SizedAlike cnt offset := by
  obtain ⟨f₁, es, t₁, ha, rfl, -, hview, -⟩ := h.atfspwrite hb hp
  obtain ⟨f₂, es', hwrote', hview'⟩ := h.seekWrite hb hw
  obtain ⟨hinfo, -⟩ := updateInodeSize_spec t₁.mem inode cnt
  generalize updateInodeSize t₁.mem inode cnt = m₁ at *
  have hwrote := ha.wrote h (ChangesOnly.refl _ _) rfl hinfo
  have hsize := congrArg FileView.size hview
  have hsize' := congrArg FileView.size hview'
  rw [viewOf_size] at hsize hsize'
  simp only at hsize hsize'
  rw [FileView.SizedAlike, viewOf_pos, viewOf_size, ← hsize, ← hsize']
  exact ⟨fun hsame => hsame.size, fun hsame => hwrote.sameFile hwrote' hsame⟩

end Call

/-! ## Runs of calls -/

/-- After the calls `cs` the size in the inode is the maximum over all the writes, and the newest
entry of the log records it. -/
structure SizeTracked (inode : Nat) (s t : State) (cs : List Call) : Prop where
  size : AtfsInode.iSize.get t.mem inode =
    ((viewOf s.mem inode).writeEnds cs).foldl max (AtfsInode.iSize.get s.mem inode)
  newest : (viewOf s.mem inode).writeEnds cs ≠ [] →
    (entriesOf t.trace).getLast? = some (newestEntry t.mem inode) ∧
      FileLogEntry.fileSize.get t.mem (newestEntry t.mem inode) = AtfsInode.iSize.get t.mem inode

section Run

open FileView

variable {A : PageAllocator} {R : RadixTree} {f : Frontier} {s s' : State} {inode : Nat}
  {cs : List Call}

theorem runCalls_cons {c : Call} (h : runCalls A R inode s (c :: cs) = .ok s') :
    ∃ t, runCall A R inode s c = .ok t ∧ runCalls A R inode t cs = .ok s' := by
  rw [runCalls] at h
  exact bind_eq_ok.1 h

/-- A run whose positional writes leave the size they should follows the view of the file. -/
theorem Ready.runCalls (h : Ready A f s inode) (hfit : Always Fits (viewOf s.mem inode) cs)
    (hag : Always Agrees (viewOf s.mem inode) cs) (hrun : runCalls A R inode s cs = .ok s') :
    ∃ f', Ready A f' s' inode ∧ viewOf s'.mem inode = cs.foldl step (viewOf s.mem inode) ∧
      (Newest f s inode ∨ (viewOf s.mem inode).writeEnds cs ≠ [] → Newest f' s' inode) := by
  induction cs generalizing s f with
  | nil =>
    obtain rfl : s = s' := by simpa [Atfs.runCalls] using hrun
    exact ⟨f, h, rfl, fun hc => hc.resolve_right fun hc => hc rfl⟩
  | cons c cs ih =>
    obtain ⟨t, hcall, hrun⟩ := runCalls_cons hrun
    obtain ⟨f₁, h₁, hview, hnew⟩ := h.runCall hfit.1 hag.1 hcall
    obtain ⟨f', h', hview', hnew'⟩ := ih h₁ (hview ▸ hfit.2) (hview ▸ hag.2) hrun
    refine ⟨f', h', hview'.trans (by rw [hview, List.foldl_cons]), fun hc => hnew' ?_⟩
    rcases hc with hc | hc
    · exact .inl (hnew (.inl hc))
    · rw [writeEnds] at hc
      by_cases hwrite : (viewOf s.mem inode).writeEnd c = none
      · rw [hwrite, Option.toList_none, List.nil_append] at hc
        exact .inr (hview ▸ hc)
      · exact .inl (hnew (.inr hwrite))

theorem Ready.sizeTracked (h : Ready A f s inode) (hfit : Always Fits (viewOf s.mem inode) cs)
    (hag : Always Agrees (viewOf s.mem inode) cs) (hrun : Atfs.runCalls A R inode s cs = .ok s') :
    SizeTracked inode s s' cs := by
  obtain ⟨f', h', hview, hnew⟩ := h.runCalls hfit hag hrun
  refine ⟨?_, fun hne => ?_⟩
  · rw [← viewOf_size, hview, size_steps, viewOf_size]
  · obtain ⟨-, hsize, hlast⟩ := hnew (.inr hne)
    rw [newestEntry, h'.tail]
    exact ⟨hlast, hsize⟩

/-- A positional write that leaves another size than it should shows in the size at once. -/
theorem Ready.agrees_of_size {c : Call} (h : Ready A f s inode) (hfit : (viewOf s.mem inode).Fits c)
    (hcall : Atfs.runCall A R inode s c = .ok s')
    (hsize : AtfsInode.iSize.get s'.mem inode = ((viewOf s.mem inode).step c).size) :
    (viewOf s.mem inode).Agrees c := by
  cases c with
  | pwrite buf cnt offset =>
    rw [Atfs.runCall] at hcall
    obtain ⟨⟨ret, t⟩, hwrite, hcall⟩ := bind_eq_ok.1 hcall
    obtain rfl : t = s' := by simpa using hcall
    obtain ⟨-, -, -, -, -, -, hview, -⟩ := h.atfspwrite hfit hwrite
    rw [← viewOf_size, hview] at hsize
    exact hsize
  | _ => trivial

/-- The sizes along a run are right only if every positional write leaves the one it should. -/
theorem Ready.agrees_of_sizes (h : Ready A f s inode) (hfit : Always Fits (viewOf s.mem inode) cs)
    (hrun : Atfs.runCalls A R inode s cs = .ok s')
    (hsize : ∀ n t, Atfs.runCalls A R inode s (cs.take n) = .ok t →
      AtfsInode.iSize.get t.mem inode =
      ((cs.take n).foldl step (viewOf s.mem inode)).size) :
    Always Agrees (viewOf s.mem inode) cs := by
  induction cs generalizing s f with
  | nil => trivial
  | cons c cs ih =>
    obtain ⟨t, hcall, hrun⟩ := runCalls_cons hrun
    have hag := h.agrees_of_size hfit.1 hcall (hsize 1 t (by
      rw [List.take_succ_cons, List.take_zero, Atfs.runCalls]
      exact bind_eq_ok.2 ⟨t, hcall, rfl⟩))
    obtain ⟨f₁, h₁, hview, -⟩ := h.runCall hfit.1 hag hcall
    refine ⟨hag, hview ▸ ih h₁ (hview ▸ hfit.2) hrun fun n u hu => ?_⟩
    rw [hview]
    refine hsize (n + 1) u ?_
    rw [List.take_succ_cons, Atfs.runCalls]
    exact bind_eq_ok.2 ⟨t, hcall, hu⟩

/-- Along a run the size is right, in the inode and in the newest entry, exactly where every
positional write leaves the size it should; and from each state of such a run a positional
write leaves what a seek and a write leave exactly where it does so too. -/
theorem runCalls_tracked_iff (h : Ready A f s inode) (hfit : Always Fits (viewOf s.mem inode) cs)
    (hrun : runCalls A R inode s cs = .ok s') :
    ((∀ n t, runCalls A R inode s (cs.take n) = .ok t → SizeTracked inode s t (cs.take n)) ↔
      Always Agrees (viewOf s.mem inode) cs) ∧
    ∀ n t, runCalls A R inode s (cs.take n) = .ok t →
      Always Agrees (viewOf s.mem inode) (cs.take n) → ∃ f', Ready A f' t inode ∧
        viewOf t.mem inode = (cs.take n).foldl step (viewOf s.mem inode) ∧
        ∀ buf cnt offset ret u u', offset + cnt < 2 ^ 64 →
          atfspwrite A R t inode buf cnt offset = .ok (ret, u) →
          seekWrite A R inode t ⟨buf, cnt, offset⟩ = .ok u' →
          (SameFile f' t u u' inode ↔ (viewOf t.mem inode).SizedAlike cnt offset) := by
  refine ⟨⟨fun htracked => ?_, fun hag n t ht => ?_⟩, fun n t ht hag => ?_⟩
  · refine h.agrees_of_sizes hfit hrun fun n t ht => ?_
    rw [(htracked n t ht).size, size_steps, viewOf_size]
  · exact h.sizeTracked (hfit.take n) (hag.take n) ht
  · obtain ⟨f', hready, hview, -⟩ := h.runCalls (hfit.take n) hag ht
    exact ⟨f', hready, hview, fun buf cnt offset ret u u' hb hp hw => hready.sameFile_iff hb hp hw⟩

theorem FreshFile.ready (h : FreshFile A f s inode) : Ready A f s inode where
  holds := h.holds
  tail := h.tail
  inodePage := h.inodePage
  mapped := fun key hkey => absurd (congrFun h.index key) hkey

theorem staleFile_view (b : UInt8) : viewOf (staleFile b).mem fileInode = ⟨0, 0⟩ :=
  FileView.ext fileState_fileOff (staleFile_fresh b).size

/-- A positional write to the fresh file returns as long as one local list has the pages. -/
theorem staleFile_pwrite_ok (b : UInt8) (buf : Memory) {cnt offset : Nat} (hpos : 1 ≤ cnt)
    (hb : offset + cnt < 2 ^ 64) (hone : offset % 4096 + cnt ≤ 4096 * 63) : ∃ ret t,
    atfspwrite pageAllocator radixTree (staleFile b) fileInode buf cnt offset = .ok (ret, t) := by
  obtain ⟨ret, t, hwrite⟩ := fileState_write_ok 0 (fun k _ => if k < 4096 then b else 0)
    (fun k hk => absurd rfl hk) hpos hb hone buf
  exact ⟨ret, _, bind_eq_ok.2 ⟨_, hwrite, rfl⟩⟩

/-- Ten bytes are written at the position of the file, which then moves to 3. -/
theorem runCalls_tracked_iff_sample :
    ∃ s', runCalls pageAllocator radixTree fileInode (staleFile 0)
        [.pwrite UInt8.ofNat 10 0, .lseek 3 .seekSet] = .ok s' ∧
      AtfsInode.iSize.get s'.mem fileInode = 10 ∧
      FileLogEntry.fileSize.get s'.mem (newestEntry s'.mem fileInode) = 10 := by
  have hview := staleFile_view 0
  have hready := (staleFile_fresh 0).ready
  obtain ⟨ret, t, hwrite⟩ := staleFile_pwrite_ok 0 UInt8.ofNat (show 1 ≤ 10 by decide)
    (show 0 + 10 < 2 ^ 64 by decide) (by decide)
  generalize staleFile 0 = s at *
  have hrun : runCalls pageAllocator radixTree fileInode s
      [.pwrite UInt8.ofNat 10 0, .lseek 3 .seekSet] = .ok (atfslseek t fileInode 3 .seekSet).2 :=
    bind_eq_ok.2 ⟨t, bind_eq_ok.2 ⟨_, hwrite, rfl⟩, rfl⟩
  have hfit : Always Fits (viewOf s.mem fileInode) [.pwrite UInt8.ofNat 10 0,
      .lseek 3 .seekSet] := by
    rw [hview]
    refine ⟨show 0 + 10 < 2 ^ 64 by decide, ?_, trivial⟩
    rintro p hp
    obtain rfl : 3 = p := by simpa [FileView.target] using hp
    decide
  have hag : Always Agrees (viewOf s.mem fileInode)
      [.pwrite UInt8.ofNat 10 0, .lseek 3 .seekSet] := by
    rw [hview]
    exact ⟨show SizedAlike ⟨0, 0⟩ 10 0 by decide, trivial, trivial⟩
  obtain ⟨hsize, hnew⟩ := (runCalls_tracked_iff hready hfit hrun).1.2 hag 2 _ hrun
  rw [hview, ← viewOf_size s.mem, hview] at hsize
  have hten : AtfsInode.iSize.get (atfslseek t fileInode 3 .seekSet).2.mem fileInode = 10 :=
    hsize.trans (by decide)
  refine ⟨_, hrun, hten, ?_⟩
  rw [← hten]
  exact (hnew (by rw [hview]; simp [writeEnds, writeEnd])).2

/-- One byte is written at 5000 while the file is at 0: the file gets the size 1. -/
theorem atfspwrite_size_short :
    ∃ t u, runCalls pageAllocator radixTree fileInode (staleFile 0) [.pwrite UInt8.ofNat 1 5000] =
        .ok t ∧
      seekWrite pageAllocator radixTree fileInode (staleFile 0) ⟨UInt8.ofNat, 1, 5000⟩ = .ok u ∧
      AtfsInode.iSize.get t.mem fileInode = 1 ∧ AtfsInode.iSize.get u.mem fileInode = 5001 ∧
      ¬ SizeTracked fileInode (staleFile 0) t [.pwrite UInt8.ofNat 1 5000] ∧
      ∀ f, ¬ SameFile f (staleFile 0) t u fileInode := by
  have hview := staleFile_view 0
  have hready := (staleFile_fresh 0).ready
  have hb : 5000 + 1 < 2 ^ 64 := by decide
  obtain ⟨ret, t, hwrite⟩ := staleFile_pwrite_ok 0 UInt8.ofNat (show 1 ≤ 1 by decide) hb (by decide)
  obtain ⟨u, hseek⟩ := staleFile_write_ok 0 (w := ⟨UInt8.ofNat, 1, 5000⟩) (show 1 ≤ 1 by decide) hb
    (by decide)
  generalize staleFile 0 = s at *
  have hpos : AtfsInode.fileOff.get s.mem fileInode = 0 := by rw [← viewOf_pos, hview]
  have hold : AtfsInode.iSize.get s.mem fileInode = 0 := by rw [← viewOf_size, hview]
  obtain ⟨-, -, -, -, -, -, hview₁, -⟩ := hready.atfspwrite hb hwrite
  obtain ⟨-, -, -, hview₂⟩ := hready.seekWrite hb hseek
  rw [hpos, hold] at hview₁
  rw [hold] at hview₂
  have hone : AtfsInode.iSize.get t.mem fileInode = 1 := by
    rw [← viewOf_size, hview₁]
    decide
  have htwo : AtfsInode.iSize.get u.mem fileInode = 5001 := by
    rw [← viewOf_size, hview₂]
    decide
  refine ⟨t, u, bind_eq_ok.2 ⟨t, bind_eq_ok.2 ⟨_, hwrite, rfl⟩, rfl⟩, hseek, hone, htwo, ?_, ?_⟩
  · rintro ⟨hsize, -⟩
    rw [hone, hview, hold] at hsize
    exact absurd hsize (by decide)
  · rintro f hsame
    have := hsame.size
    omega

end Run

end Atfs
