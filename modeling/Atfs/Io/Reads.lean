import Atfs.Io.Calls

/-!
# Reads in a run of calls

`nvmio_read` always returns, and copies from no byte outside the pages it looks up. It tells a
request that is too long by a sum of two words, which is what it should be as long as the sum
does not wrap into the file; and `atfsread` moves the position of the file whether or not it has
read anything.
-/

namespace Atfs

open ByteMemory LinkedChain

/-! ## The copies of a read -/

/-- One `memcpy` of `nvmio_read`: `size` bytes at `offset` in `page`, or in the page of zeroes. -/
structure PageCopy where
  page : Nat
  offset : Nat
  userBuf : Nat
  size : Nat

def PageCopy.apply (m buf : Memory) (c : PageCopy) : Memory :=
  if c.page ≠ offsetNull then copy buf c.userBuf m (c.page + c.offset) c.size
  else fill buf c.userBuf c.size 0

/-- The copy of the round that starts with the variables `v`. -/
def ReadVars.pageCopy (s : State) (inode : Nat) (v : ReadVars) : PageCopy :=
  ⟨s.index inode v.startPage, v.offset, v.userBuf, v.rdSize⟩

/-- The copies of the loop of `nvmio_read`, one for every round. -/
def readCopies (s : State) (inode : Nat) : Nat → ReadVars → List PageCopy
  | 0, _ => []
  | fuel + 1, v =>
    if v.totalSize > 0 then
      v.pageCopy s inode :: readCopies s inode fuel (readChunk s inode v)
    else []

section Copies

variable {s : State} {inode fuel : Nat} {v : ReadVars}

variable (s inode) in
theorem readChunk_totalSize (v : ReadVars) :
    (readChunk s inode v).totalSize = v.totalSize - v.rdSize := by
  rw [readChunk_eq]

variable (s inode) in
theorem ReadVars.rdSize_pos (hoff : v.offset < 4096) (hpos : v.totalSize > 0) : 0 < v.rdSize := by
  unfold ReadVars.rdSize
  omega

variable (s inode) in
/-- The loop ends, also where the key wraps. -/
theorem readLoop_ok (hoff : v.offset < 4096) (hfuel : v.totalSize < fuel) :
    ∃ v', readLoop s inode fuel v = .ok v' ∧
      v'.buf = (readCopies s inode fuel v).foldl (PageCopy.apply s.mem) v.buf := by
  induction fuel generalizing v with
  | zero => omega
  | succ fuel ih =>
    unfold readLoop readCopies
    by_cases hpos : v.totalSize > 0
    · have hsize := ReadVars.rdSize_pos hoff hpos
      have htotal := readChunk_totalSize s inode v
      have hbuf : (readChunk s inode v).buf = (v.pageCopy s inode).apply s.mem v.buf := by
        rw [readChunk_eq]
        rfl
      obtain ⟨v', hloop, hv'⟩ := ih (v := readChunk s inode v) (Nat.zero_lt_of_lt hoff) (by omega)
      rw [if_pos hpos, if_pos hpos, List.foldl_cons, ← hbuf]
      exact ⟨v', hloop, hv'⟩
    · rw [if_neg hpos, if_neg hpos]
      exact ⟨v, rfl, rfl⟩

variable (s inode) in
/-- Every copy stays inside its page, and together they copy what is asked for. -/
theorem readCopies_inside (hoff : v.offset < 4096) (hfuel : v.totalSize < fuel) :
    (∀ c ∈ readCopies s inode fuel v, c.offset + c.size ≤ 4096) ∧
      ((readCopies s inode fuel v).map (·.size)).sum = v.totalSize := by
  induction fuel generalizing v with
  | zero => omega
  | succ fuel ih =>
    unfold readCopies
    by_cases hpos : v.totalSize > 0
    · have hsize : v.rdSize = min v.totalSize (4096 - v.offset) := rfl
      have htotal := readChunk_totalSize s inode v
      obtain ⟨hin, hsum⟩ := ih (v := readChunk s inode v) (Nat.zero_lt_of_lt hoff) (by omega)
      rw [if_pos hpos]
      constructor
      · intro c hc
        rcases List.mem_cons.1 hc with rfl | hc
        · exact show v.offset + v.rdSize ≤ 4096 by omega
        · exact hin c hc
      · rw [List.map_cons, List.sum_cons, hsum]
        exact show v.rdSize + _ = _ by omega
    · rw [if_neg hpos]
      refine ⟨fun c hc => absurd hc List.not_mem_nil, ?_⟩
      rw [List.map_nil, List.sum_nil]
      omega

/-- Every copy reads a page of the index at one of the page boundaries, or the page of zeroes. -/
theorem readCopies_page (hal : v.startPage % 4096 = 0) {c : PageCopy}
    (hc : c ∈ readCopies s inode fuel v) : ∃ key, key % 4096 = 0 ∧ c.page = s.index inode key := by
  induction fuel generalizing v with
  | zero => exact absurd hc List.not_mem_nil
  | succ fuel ih =>
    unfold readCopies at hc
    split_ifs at hc with hpos
    · rcases List.mem_cons.1 hc with rfl | hc
      · exact ⟨v.startPage, hal, rfl⟩
      · refine ih ?_ hc
        rw [readChunk_eq]
        exact show addU64 v.startPage pageSize % 4096 = 0 by
          rw [addU64, pageSize_eq]
          omega
    · exact absurd hc List.not_mem_nil

end Copies

/-- What `nvmio_read` sets its variables to. -/
def readVars (buf : Memory) (cnt fileOff : Nat) : ReadVars where
  offset := fileOff &&& pageOffsetMask
  startPage := fileOff &&& pageMask
  totalSize := cnt
  userBuf := 0
  buf := buf

section Bytes

variable {s : State} {inode cnt fileOff : Nat}

theorem readVars_offset_lt (buf : Memory) (cnt fileOff : Nat) :
    (readVars buf cnt fileOff).offset < 4096 := by
  rw [readVars, and_pageOffsetMask]
  exact Nat.mod_lt _ (by decide)

variable (s inode) in
/-- `nvmio_read` returns. -/
theorem nvmioRead_ok (buf : Memory) (cnt fileOff : Nat) :
    ∃ buf', nvmioRead s inode buf cnt fileOff =
      .ok (if addU64 fileOff cnt > AtfsInode.iSize.get s.mem inode then -1 else (cnt : Int),
        buf') := by
  unfold nvmioRead
  split_ifs with hsize
  · exact ⟨buf, rfl⟩
  · obtain ⟨v', hloop, -⟩ := readLoop_ok s inode (v := readVars buf cnt fileOff)
      (readVars_offset_lt buf cnt fileOff) (Nat.lt_succ_self cnt)
    exact ⟨v'.buf, bind_eq_ok.2 ⟨v', hloop, rfl⟩⟩

/-- A request inside the file is answered by the bytes that the index and the pages give, copied
from inside these pages. -/
theorem nvmioRead_bytes (hsize : fileOff + cnt ≤ AtfsInode.iSize.get s.mem inode) (buf : Memory) :
    ∃ buf', nvmioRead s inode buf cnt fileOff = .ok (cnt, buf') ∧
      (∀ a, buf' a = if a < cnt then fileByte s inode (fileOff + a) else buf a) ∧
      buf' = (readCopies s inode (cnt + 1) (readVars buf cnt fileOff)).foldl
        (PageCopy.apply s.mem) buf ∧
      (∀ c ∈ readCopies s inode (cnt + 1) (readVars buf cnt fileOff), c.offset + c.size ≤ 4096 ∧
        ∃ key, key % 4096 = 0 ∧ c.page = s.index inode key) ∧
      ((readCopies s inode (cnt + 1) (readVars buf cnt fileOff)).map (·.size)).sum = cnt := by
  have hlt : AtfsInode.iSize.get s.mem inode < 2 ^ 64 := AtfsInode.iSize.get_lt s.mem inode
  have hoff := readVars_offset_lt buf cnt fileOff
  obtain ⟨buf', hread, hbytes⟩ := nvmioRead_spec (by omega) hsize buf
  obtain ⟨v', hloop, hcopies⟩ := readLoop_ok s inode hoff (Nat.lt_succ_self cnt)
  obtain ⟨hin, hsum⟩ := readCopies_inside s inode hoff (Nat.lt_succ_self cnt)
  have hal : (readVars buf cnt fileOff).startPage % 4096 = 0 := by
    rw [readVars, and_pageMask (by omega)]
    exact show fileOff / 4096 * 4096 % 4096 = 0 by omega
  have hsame : v'.buf = buf' := by
    have hread' : nvmioRead s inode buf cnt fileOff = .ok ((cnt : Int), v'.buf) := by
      rw [nvmioRead, addU64_of_lt (by omega), if_neg (by omega)]
      exact bind_eq_ok.2 ⟨v', hloop, rfl⟩
    rw [hread] at hread'
    simpa [eq_comm] using hread'
  refine ⟨buf', hread, hbytes, hsame ▸ hcopies, fun c hc => ⟨hin c hc, readCopies_page hal hc⟩,
    hsum⟩

/-- Four bytes over the edge of the first page of a file that has only this page: two are those of
the page, and the two behind it are zero. -/
theorem nvmioRead_bytes_sample : ∃ buf', nvmioRead
    (fileState 5000 (fun _ o => UInt8.ofNat o) fun key => if key =
      0 then pageOff 4098 else offsetNull) fileInode
    (fun _ => 7) 4 4094 = .ok ((4 : Nat), buf') ∧ buf' 0 = 254 ∧ buf' 1 = 255 ∧ buf' 2 = 0 ∧
    buf' 3 = 0 ∧ buf' 4 = 7 := by
  generalize hs : fileState 5000 (fun _ o => UInt8.ofNat o)
    (fun key => if key = 0 then pageOff 4098 else offsetNull) = s
  have hsize : 4094 + 4 ≤ AtfsInode.iSize.get s.mem fileInode := by
    rw [← hs, fileState_iSize (by decide)]
    decide
  obtain ⟨buf', hread, hbytes, -⟩ := nvmioRead_bytes hsize fun _ => 7
  have hindex (key : Nat) : s.index fileInode key = if key =
      0 then pageOff 4098 else offsetNull := by
    rw [← hs, fileState]
    exact congrFun (if_pos rfl) key
  have hpage (x : Nat) (hx : x < 4096) : fileByte s fileInode x = UInt8.ofNat x := by
    have hne := (isPage_pageOff (k := 4098) (by omega)).ne_offsetNull
    rw [fileByte, hindex, Nat.div_eq_of_lt hx, if_pos (Nat.zero_mul _), if_pos hne,
      Nat.mod_eq_of_lt hx, ← hs, fileState_body hx, fileBody, if_neg (by decide)]
  have hhole (x : Nat) (hx : 4096 ≤ x) : fileByte s fileInode x = 0 := by
    have hkey : x / 4096 * 4096 ≠ 0 := by omega
    rw [fileByte, hindex, if_neg hkey]
    exact if_neg (not_not_intro rfl)
  refine ⟨buf', hread, ?_, ?_, ?_, ?_, ?_⟩
  · rw [hbytes, if_pos (by decide), hpage _ (by decide)]
    rfl
  · rw [hbytes, if_pos (by decide), hpage _ (by decide)]
    rfl
  · rw [hbytes, if_pos (by decide), hhole _ (by decide)]
  · rw [hbytes, if_pos (by decide), hhole _ (by decide)]
  · rw [hbytes, if_neg (by decide)]

end Bytes

/-! ## The reads of a run -/

/-- A call of `atfsread` that has returned: the states before and after, how many bytes were asked
for, and the value returned. -/
structure ReadRecord where
  before : State
  cnt : Nat
  ret : Int
  after : State

/-- The read at the position of the file that a call makes. -/
def readOf (inode : Nat) (s : State) : Call → List ReadRecord
  | .read buf cnt =>
    match atfsread s inode buf cnt with
    | .ok (ret, _, t) => [⟨s, cnt, ret, t⟩]
    | .error _ => []
  | _ => []

/-- The reads that a run of calls makes. -/
def readsOf (A : PageAllocator) (R : RadixTree) (inode : Nat) : State → List Call → List ReadRecord
  | _, [] => []
  | s, c :: cs =>
    readOf inode s c ++
      match runCall A R inode s c with
      | .ok t => readsOf A R inode t cs
      | .error _ => []

namespace ReadRecord

/-- Where the read starts. -/
def pos (r : ReadRecord) (inode : Nat) : Nat := AtfsInode.fileOff.get r.before.mem inode

/-- The size of the file. -/
def size (r : ReadRecord) (inode : Nat) : Nat := AtfsInode.iSize.get r.before.mem inode

/-- The read returns all the bytes exactly if the file has them. -/
def Exact (inode : Nat) (r : ReadRecord) : Prop :=
  r.ret = r.cnt ↔ r.pos inode + r.cnt ≤ r.size inode

/-- The end of the request wraps to a place inside the file. -/
def WrapsIn (inode : Nat) (r : ReadRecord) : Prop :=
  2 ^ 64 ≤ r.pos inode + r.cnt ∧ r.pos inode + r.cnt ≤ 2 ^ 64 + r.size inode

/-- How far the read has moved the position. -/
def advance (inode : Nat) (r : ReadRecord) : Nat :=
  subU64 (AtfsInode.fileOff.get r.after.mem inode) (r.pos inode)

/-- The test of `nvmio_read` lets the request through, or it asks for nothing. -/
def Harmless (inode : Nat) (r : ReadRecord) : Prop :=
  r.cnt = 0 ∨ addU64 (r.pos inode) r.cnt ≤ r.size inode

end ReadRecord

/-- The bytes of the inode and its index are the same. -/
structure SameInode (inode : Nat) (s t : State) : Prop where
  bytes : Set.EqOn t.mem s.mem (inodeBytes inode)
  index : t.index inode = s.index inode

/-- The reads that were refused have left the inode alone, and the others have moved the position
by what they have returned. -/
structure Undisturbed (inode : Nat) (rs : List ReadRecord) : Prop where
  refused : ∀ r ∈ rs, r.ret = -1 → SameInode inode r.before r.after
  advance : (rs.map (·.advance inode)).sum = (rs.map (·.ret.toNat)).sum

section Reads

variable {A : PageAllocator} {R : RadixTree} {s : State} {inode : Nat} {cs : List Call}
  {r : ReadRecord}

variable (s inode) in
/-- The position moves on whether or not the read is refused. -/
theorem atfsread_eq (buf : Memory) (cnt : Nat) :
    ∃ buf', atfsread s inode buf cnt =
      .ok (if addU64 (AtfsInode.fileOff.get s.mem inode) cnt > AtfsInode.iSize.get s.mem inode
        then -1 else (cnt : Int), buf', { s with mem := updateInodeOffset s.mem inode cnt }) := by
  obtain ⟨buf', hread⟩ := nvmioRead_ok s inode buf cnt (AtfsInode.fileOff.get s.mem inode)
  exact ⟨buf', bind_eq_ok.2 ⟨_, hread, rfl⟩⟩

theorem mem_readsOf (hr : r ∈ readsOf A R inode s cs) :
    ∃ buf buf', Call.read buf r.cnt ∈ cs ∧
      atfsread r.before inode buf r.cnt = .ok (r.ret, buf', r.after) := by
  induction cs generalizing s with
  | nil => exact absurd hr List.not_mem_nil
  | cons c cs ih =>
    rw [readsOf, List.mem_append] at hr
    rcases hr with hr | hr
    · cases c with
      | read buf cnt =>
        obtain ⟨buf', hread⟩ := atfsread_eq s inode buf cnt
        simp only [readOf, hread, List.mem_singleton] at hr
        subst hr
        exact ⟨buf, buf', List.mem_cons_self, hread⟩
      | _ => exact absurd hr List.not_mem_nil
    · split at hr
      · obtain ⟨buf, buf', hmem, hread⟩ := ih hr
        exact ⟨buf, buf', List.mem_cons_of_mem _ hmem, hread⟩
      · exact absurd hr List.not_mem_nil

/-- What a read of a run returns and leaves. -/
theorem readsOf_spec (hr : r ∈ readsOf A R inode s cs) :
    (r.ret = if addU64 (r.pos inode) r.cnt > r.size inode then -1 else (r.cnt : Int)) ∧
      r.after = { r.before with mem := updateInodeOffset r.before.mem inode r.cnt } := by
  obtain ⟨buf, buf', -, hread⟩ := mem_readsOf hr
  obtain ⟨buf₁, hread'⟩ := atfsread_eq r.before inode buf r.cnt
  rw [hread] at hread'
  simp only [Except.ok.injEq, Prod.mk.injEq] at hread'
  exact ⟨hread'.1, hread'.2.2⟩

theorem ReadRecord.bounds (r : ReadRecord) (inode : Nat) :
    r.pos inode < 2 ^ 64 ∧ r.size inode < 2 ^ 64 :=
  ⟨AtfsInode.fileOff.get_lt _ _, AtfsInode.iSize.get_lt _ _⟩

theorem readsOf_cnt (hcnt : ∀ buf cnt, Call.read buf cnt ∈ cs → cnt < 2 ^ 64)
    (hr : r ∈ readsOf A R inode s cs) : r.cnt < 2 ^ 64 := by
  obtain ⟨buf, -, hmem, -⟩ := mem_readsOf hr
  exact hcnt buf r.cnt hmem

/-! ## What is let through -/

/-- The test of `nvmio_read` is right about a read exactly if its end does not wrap into the
file. -/
theorem readsOf_exact (hr : r ∈ readsOf A R inode s cs) (hcnt : r.cnt < 2 ^ 64) :
    r.Exact inode ↔ ¬ r.WrapsIn inode := by
  obtain ⟨hret, -⟩ := readsOf_spec hr
  obtain ⟨hpos, hsize⟩ := r.bounds inode
  unfold ReadRecord.Exact ReadRecord.WrapsIn
  rw [hret]
  unfold addU64
  generalize r.pos inode = pos at *
  generalize r.size inode = size at *
  split_ifs with hover
  · -- the request is refused
    constructor
    · omega
    · exact fun _ => ⟨False.elim, fun hin => by omega⟩
  · constructor
    · rintro ⟨hin, -⟩ ⟨hwrap, -⟩
      have := hin rfl
      omega
    · exact fun hin => ⟨fun _ => by omega, fun _ => rfl⟩

/-- All reads of a run return exactly what the file has, if and only if no end wraps into it. -/
theorem readsOf_exact_iff (hcnt : ∀ buf cnt, Call.read buf cnt ∈ cs → cnt < 2 ^ 64) :
    (∀ r ∈ readsOf A R inode s cs, r.Exact inode) ↔
      ∀ r ∈ readsOf A R inode s cs, ¬ r.WrapsIn inode :=
  forall₂_congr fun _ hr => readsOf_exact hr (readsOf_cnt hcnt hr)

theorem mem_readsOf_read {buf : Memory} {cnt : Nat}
    (hr : r ∈ readsOf A R inode s [.read buf cnt]) : r.before = s ∧ r.cnt = cnt := by
  obtain ⟨buf', hread⟩ := atfsread_eq s inode buf cnt
  simp only [readsOf, readOf, hread, List.mem_append, List.mem_singleton] at hr
  rcases hr with rfl | hr
  · exact ⟨rfl, rfl⟩
  · split at hr <;> exact absurd hr List.not_mem_nil

theorem exists_readsOf_read (A : PageAllocator) (R : RadixTree) (s : State) (inode : Nat)
    (buf : Memory) (cnt : Nat) :
    ∃ r ∈ readsOf A R inode s [.read buf cnt], r.before = s ∧ r.cnt = cnt := by
  obtain ⟨ret, buf', t, hread⟩ : ∃ ret buf' t, atfsread s inode buf cnt = .ok (ret, buf', t) :=
    ⟨_, _, _, (atfsread_eq s inode buf cnt).choose_spec⟩
  have hof : readOf inode s (.read buf cnt) = [⟨s, cnt, ret, t⟩] := by
    rw [readOf, hread]
  rw [readsOf, hof]
  exact ⟨_, List.mem_append_left _ (List.mem_singleton_self _), rfl, rfl⟩

theorem readsOf_lseek (offset : Int) (whence : Whence) :
    readsOf A R inode s (.lseek offset whence :: cs) =
      readsOf A R inode (atfslseek s inode offset whence).2 cs := rfl

/-- A byte is asked for at the start of an empty file. -/
theorem readsOf_exact_iff_sample :
    (∀ r ∈ readsOf pageAllocator radixTree fileInode (staleFile 0) [.read (fun _ => 0) 1],
      r.Exact fileInode) ∧
    ∃ r ∈ readsOf pageAllocator radixTree fileInode (staleFile 0) [.read (fun _ => 0) 1],
    r.cnt = 1 := by
  refine ⟨(readsOf_exact_iff ?_).2 fun r hr => ?_, ?_⟩
  · intro buf cnt hmem
    obtain ⟨-, rfl⟩ : _ ∧ cnt = 1 := by simpa using hmem
    decide
  · obtain ⟨hbefore, hcnt⟩ := mem_readsOf_read hr
    have hpos : r.pos fileInode = 0 := by
      rw [ReadRecord.pos, hbefore]
      exact fileState_fileOff
    unfold ReadRecord.WrapsIn
    omega
  · obtain ⟨r, hr, -, hcnt⟩ := exists_readsOf_read pageAllocator radixTree (staleFile 0) fileInode
      (fun _ => 0) 1
    exact ⟨r, hr, hcnt⟩

/-- A byte is asked for at position -1 of an empty file, and returned. -/
theorem atfsread_behind_end :
    ∃ r ∈ readsOf pageAllocator radixTree fileInode (staleFile 0)
        [.lseek (-1) .seekSet, .read (fun _ => 0) 1],
      r.pos fileInode = 2 ^ 64 - 1 ∧ r.size fileInode = 0 ∧ r.cnt = 1 ∧ r.ret = 1 ∧
        ¬ r.Exact fileInode := by
  have hview := staleFile_view 0
  generalize staleFile 0 = s at *
  have hneg : ((-1 : Int) % 2 ^ 64).toNat = 2 ^ 64 - 1 := by decide
  have hseek : (atfslseek s fileInode (-1) .seekSet).2 =
      { s with mem := AtfsInode.fileOff.set s.mem fileInode (2 ^ 64 - 1) } := by
    simp only [atfslseek, hneg]
  rw [readsOf_lseek, hseek]
  obtain ⟨r, hr, hbefore, hcnt⟩ := exists_readsOf_read pageAllocator radixTree
    { s with mem := AtfsInode.fileOff.set s.mem fileInode (2 ^ 64 - 1) } fileInode (fun _ => 0) 1
  have hpos : r.pos fileInode = 2 ^ 64 - 1 := by
    rw [ReadRecord.pos, hbefore]
    exact Field.get_set_self_of_lt _ _ (by decide)
  have hsize : r.size fileInode = 0 := by
    rw [ReadRecord.size, hbefore]
    refine Eq.trans (Field.get_set_of_disjoint _ _ _ (.inl (by simp))) ?_
    rw [← viewOf_size, hview]
  have hret : r.ret = 1 := by
    rw [(readsOf_spec hr).1, hpos, hsize, hcnt]
    decide
  refine ⟨r, hr, hpos, hsize, hcnt, hret, ?_⟩
  unfold ReadRecord.Exact
  rw [hret, hpos, hsize, hcnt]
  decide

/-! ## What a refused read leaves -/

/-- A read that asks for nothing leaves everything as it was. -/
theorem updateInodeOffset_zero (m : Memory) (inode : Nat) : updateInodeOffset m inode 0 = m := by
  rw [updateInodeOffset, Nat.add_zero, Field.set_get]

theorem readsOf_fileOff (hr : r ∈ readsOf A R inode s cs) :
    AtfsInode.fileOff.get r.after.mem inode = addU64 (r.pos inode) r.cnt := by
  obtain ⟨-, hafter⟩ := readsOf_spec hr
  rw [hafter]
  exact Field.get_set_self _ _ _ _

theorem readsOf_advance (hr : r ∈ readsOf A R inode s cs) (hcnt : r.cnt < 2 ^ 64) :
    r.advance inode = r.cnt := by
  obtain ⟨hpos, -⟩ := r.bounds inode
  rw [ReadRecord.advance, readsOf_fileOff hr]
  generalize r.pos inode = pos at *
  unfold subU64 addU64
  omega

theorem SameInode.fileOff {t : State} (h : SameInode inode s t) :
    AtfsInode.fileOff.get t.mem inode = AtfsInode.fileOff.get s.mem inode := by
  refine Field.get_congr fun a ha => h.bytes ?_
  simp only [Field.bytes, AtfsInode.fileOff_off, AtfsInode.fileOff_size, Set.mem_Ico] at ha
  rw [inodeBytes, Set.mem_Ico]
  omega

/-- A refused read leaves the inode alone exactly if it asks for nothing. -/
theorem readsOf_refused (hr : r ∈ readsOf A R inode s cs) (hcnt : r.cnt < 2 ^ 64) :
    (r.ret = -1 → SameInode inode r.before r.after) ↔ r.Harmless inode := by
  obtain ⟨hret, hafter⟩ := readsOf_spec hr
  obtain ⟨hpos, -⟩ := r.bounds inode
  constructor
  · intro hsame
    by_contra hharm
    unfold ReadRecord.Harmless at hharm
    rw [not_or, not_le] at hharm
    have hmoved := (hsame (by rw [hret, if_pos hharm.2])).fileOff
    rw [readsOf_fileOff hr] at hmoved
    unfold addU64 at hmoved
    have hold : AtfsInode.fileOff.get r.before.mem inode = r.pos inode := rfl
    omega
  · rintro (hzero | hin) href
    · rw [hafter, hzero, updateInodeOffset_zero]
      exact ⟨fun _ _ => rfl, rfl⟩
    · rw [hret, if_neg (not_lt.2 hin)] at href
      omega

/-- What a harmless read returns is how far it moves the position. -/
theorem readsOf_ret (hr : r ∈ readsOf A R inode s cs) (hharm : r.Harmless inode) :
    r.ret.toNat = r.cnt := by
  obtain ⟨hret, -⟩ := readsOf_spec hr
  rw [hret]
  rcases hharm with hzero | hin
  · rw [hzero]
    split_ifs <;> rfl
  · rw [if_neg (not_lt.2 hin), Int.toNat_natCast]

/-- The reads of a run leave the position where it should be, and the inode alone where they are
refused, if and only if none of them is refused that asks for a byte. -/
theorem readsOf_undisturbed_iff (hcnt : ∀ buf cnt, Call.read buf cnt ∈ cs → cnt < 2 ^ 64) :
    Undisturbed inode (readsOf A R inode s cs) ↔
      ∀ r ∈ readsOf A R inode s cs, r.Harmless inode := by
  constructor
  · intro h r hr
    exact (readsOf_refused hr (readsOf_cnt hcnt hr)).1 (h.refused r hr)
  · intro h
    refine ⟨fun r hr => (readsOf_refused hr (readsOf_cnt hcnt hr)).2 (h r hr), ?_⟩
    refine congrArg List.sum (List.map_congr_left fun r hr => ?_)
    rw [readsOf_advance hr (readsOf_cnt hcnt hr), readsOf_ret hr (h r hr)]

/-- Three bytes are asked for at the start of a file of ten. -/
theorem readsOf_undisturbed_iff_sample :
    Undisturbed fileInode (readsOf pageAllocator radixTree fileInode
      (fileState 10 (fun _ _ => 1) fun _ => offsetNull) [.read (fun _ => 0) 3]) := by
  refine (readsOf_undisturbed_iff ?_).2 fun r hr => ?_
  · intro buf cnt hmem
    obtain ⟨-, rfl⟩ : _ ∧ cnt = 3 := by simpa using hmem
    decide
  · obtain ⟨hbefore, hcnt⟩ := mem_readsOf_read hr
    have hpos : r.pos fileInode = 0 := by
      rw [ReadRecord.pos, hbefore]
      exact fileState_fileOff
    have hsize : r.size fileInode = 10 := by
      rw [ReadRecord.size, hbefore]
      exact fileState_iSize (by decide)
    unfold ReadRecord.Harmless
    rw [hpos, hsize, hcnt]
    decide

/-- A byte is asked for at the start of an empty file: it is refused, and the position moves. -/
theorem atfsread_refused_moves :
    ∃ r ∈ readsOf pageAllocator radixTree fileInode (staleFile 0) [.read (fun _ => 0) 1],
      r.ret = -1 ∧ AtfsInode.fileOff.get r.before.mem fileInode = 0 ∧
        AtfsInode.fileOff.get r.after.mem fileInode = 1 ∧
        ¬ Undisturbed fileInode
          (readsOf pageAllocator radixTree fileInode (staleFile 0) [.read (fun _ => 0) 1]) := by
  have hview := staleFile_view 0
  generalize staleFile 0 = s at *
  obtain ⟨r, hr, hbefore, hcnt⟩ := exists_readsOf_read pageAllocator radixTree s fileInode
    (fun _ => 0) 1
  have hpos : r.pos fileInode = 0 := by
    rw [ReadRecord.pos, hbefore, ← viewOf_pos, hview]
  have hsize : r.size fileInode = 0 := by
    rw [ReadRecord.size, hbefore, ← viewOf_size, hview]
  have hret : r.ret = -1 := by
    rw [(readsOf_spec hr).1, hpos, hsize, hcnt]
    decide
  have hmoved : AtfsInode.fileOff.get r.after.mem fileInode = 1 := by
    rw [readsOf_fileOff hr, hpos, hcnt]
    decide
  refine ⟨r, hr, hret, hpos, hmoved, fun h => ?_⟩
  have hsame := (h.refused r hr hret).fileOff
  have hold : AtfsInode.fileOff.get r.before.mem fileInode = r.pos fileInode := rfl
  omega

end Reads

end Atfs
