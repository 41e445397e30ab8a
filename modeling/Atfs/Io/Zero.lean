import Atfs.Io.Supply

/-!
# Writes of no bytes

The number of pages of a write is `((cnt + offset - 1) >> 12) + 1`, which is never zero: a
write of no bytes takes one page when it starts inside a page, and 2^52 pages when it
starts at one. So such a write always takes a page and a log entry.
-/

namespace Atfs

open ByteMemory LinkedChain

/-- A write of no bytes changes nothing that can be seen: it returns, its loop takes no page
and appends no entry, and the inode, its index and all later reads stay as they were. -/
def ZeroNoOp (A : PageAllocator) (R : RadixTree) (s : State) (inode : Nat) (buf : Memory)
    (fileOff : Nat) : Prop :=
  ∃ v s₁ ret s', writeLoop A inode buf ((writeVars s.mem inode 0 fileOff).pageNums + 1)
      (writeVars s.mem inode 0 fileOff) s = .ok (v, s₁) ∧ s₁.trace = s.trace ∧
    nvmioWrite A R s inode buf 0 fileOff = .ok (ret, s') ∧
    AtfsInode.logTail.get s'.mem inode = AtfsInode.logTail.get s.mem inode ∧
    AtfsInode.iSize.get s'.mem inode = AtfsInode.iSize.get s.mem inode ∧
    s'.index inode = s.index inode ∧
    ∀ rbuf cnt off, nvmioRead s' inode rbuf cnt off = nvmioRead s inode rbuf cnt off

section Trace

variable {A : PageAllocator} {buf : Memory} {inode fuel : Nat} {v v' : WriteVars} {s s' : State}

theorem allocFreePages_trace {n node : Nat} (h : A.allocFreePages s n = .ok (node, s')) :
    s'.trace = .alloc node n :: s.trace := by
  rw [PageAllocator.allocFreePages] at h
  split at h
  · simp only [Except.ok.injEq, Prod.mk.injEq] at h
    obtain ⟨rfl, rfl⟩ := h
    rfl
  · cases h

theorem getLogEntry_trace {t e t' : Nat} (h : getLogEntry A s t = .ok (e, t', s')) :
    ∃ new, s'.trace = .logEntry e :: new ++ s.trace ∧ entriesOf new = [] := by
  rw [getLogEntry] at h
  split at h
  · obtain ⟨⟨node, s₁⟩, halloc, h⟩ := bind_eq_ok.1 h
    simp only [Except.ok.injEq, Prod.mk.injEq] at h
    obtain ⟨rfl, -, rfl⟩ := h
    refine ⟨[.logPage (ListNode.offset.get s₁.mem node), .alloc node writeLogPerAlloc], ?_, rfl⟩
    rw [allocFreePages_trace halloc]
    rfl
  · simp only [Except.ok.injEq, Prod.mk.injEq] at h
    obtain ⟨rfl, -, rfl⟩ := h
    exact ⟨[], rfl, rfl⟩

/-- Every round takes pages and appends an entry. -/
theorem writeChunk_trace (h : writeChunk A inode buf v s = .ok (v', s')) :
    ∃ e new node, s'.trace = .logEntry e :: new ++ .alloc node v.allocNum :: s.trace ∧
      entriesOf new = [] := by
  rw [writeChunk] at h
  obtain ⟨⟨node, s₁⟩, halloc, h⟩ := bind_eq_ok.1 h
  obtain ⟨⟨e, tail', s₂⟩, hentry, h⟩ := bind_eq_ok.1 h
  simp only [Except.ok.injEq, Prod.mk.injEq] at h
  obtain ⟨new, hnew, hnone⟩ := getLogEntry_trace hentry
  refine ⟨e, new, node, ?_, hnone⟩
  rw [← h.2, ← allocFreePages_trace halloc]
  exact hnew

theorem writeLoop_trace_le (h : writeLoop A inode buf fuel v s = .ok (v', s')) :
    s.trace.length ≤ s'.trace.length := by
  induction fuel generalizing v s with
  | zero => cases h
  | succ fuel ih =>
    rw [writeLoop] at h
    split_ifs at h
    · obtain ⟨⟨v₁, s₁⟩, hchunk, h⟩ := bind_eq_ok.1 h
      obtain ⟨e, new, node, htrace, -⟩ := writeChunk_trace hchunk
      have := ih h
      rw [htrace] at this
      simp only [List.length_append, List.length_cons] at this
      omega
    · cases h
      exact le_rfl

/-- A loop with pages to go leaves its trace. -/
theorem writeLoop_trace_lt (h : writeLoop A inode buf fuel v s = .ok (v', s'))
    (hpos : v.pageNums > 0) : s.trace.length < s'.trace.length := by
  cases fuel with
  | zero => cases h
  | succ fuel =>
    rw [writeLoop, if_pos hpos] at h
    obtain ⟨⟨v₁, s₁⟩, hchunk, h⟩ := bind_eq_ok.1 h
    obtain ⟨e, new, node, htrace, -⟩ := writeChunk_trace hchunk
    have := writeLoop_trace_le h
    rw [htrace] at this
    simp only [List.length_append, List.length_cons] at this
    omega

/-- Whatever is written, there is a page to go. -/
theorem writeVars_pageNums_pos (m : Memory) (inode cnt fileOff : Nat) :
    (writeVars m inode cnt fileOff).pageNums > 0 := by
  rw [writeVars]
  simp only [Nat.shiftRight_eq_div_pow]
  have := subU64_lt (addU64 cnt (fileOff &&& pageOffsetMask)) 1
  rw [addU64, show 2 ^ pageShift = 4096 from rfl]
  omega

end Trace

/-- A write of no bytes is never without effect. -/
theorem nvmioWrite_zero_never (A : PageAllocator) (R : RadixTree) (s : State) (inode : Nat)
    (buf : Memory) (fileOff : Nat) : ¬ ZeroNoOp A R s inode buf fileOff := by
  rintro ⟨v, s₁, ret, s', hloop, htrace, -⟩
  have := writeLoop_trace_lt hloop (writeVars_pageNums_pos s.mem inode 0 fileOff)
  rw [htrace] at this
  exact lt_irrefl _ this

/-- A write of no bytes at position 1 returns, and has moved the tail of the log by an entry. -/
theorem nvmioWrite_zero_unaligned :
    (∃ ret s', nvmioWrite pageAllocator radixTree
        (fileState 0 (fun _ _ => 0) fun _ => offsetNull) fileInode (fun _ => 0) 0 1 =
          .ok (ret, s') ∧
      AtfsInode.logTail.get s'.mem fileInode = fileLog + 48) ∧
    ¬ ZeroNoOp pageAllocator radixTree (fileState 0 (fun _ _ => 0) fun _ => offsetNull) fileInode
      (fun _ => 0) 1 := by
  generalize hs : fileState 0 (fun _ _ => 0) (fun _ => offsetNull) = s
  have hf : fileFrontier.Holds pageAllocator s.mem := hs ▸ fileFrontier_holds
  have htail : AtfsInode.logTail.get s.mem fileInode = fileLog := hs ▸ fileState_logTail
  constructor
  · obtain ⟨⟨node, s₁⟩, halloc⟩ : ∃ r, pageAllocator.allocFreePages s 1 = .ok r :=
      hs ▸ fileState_alloc_ok le_rfl (by omega)
    obtain ⟨p, l, F', -, -, hall⟩ := PageAllocator.allocFreePages_spec hf.rep le_rfl halloc
    have hf₁ := (hall.logStep hf ∅).holds
    obtain ⟨⟨e, tail', s₂⟩, hentry⟩ := getLogEntry_ok hf₁ fileFrontier_room
    obtain ⟨-, rfl⟩ : e = fileLog ∧ tail' = fileLog + 48 := by
      rcases getLogEntry_cases hf₁ hentry with ⟨-, he, htail', -⟩ | ⟨hfull, -⟩
      · exact ⟨he, htail'⟩
      · exact absurd fileFrontier_room (not_le.2 hfull)
    have hv : writeVars s.mem fileInode 0 1 =
        ⟨1, AtfsInode.iSize.get s.mem fileInode, 1, 1, 0, 0, 0, fileLog⟩ := by
      rw [writeVars, htail]
      rfl
    obtain ⟨⟨v₁, s₃⟩, hchunk, hnone, hlog⟩ : ∃ r, writeChunk pageAllocator fileInode (fun _ => 0)
        (writeVars s.mem fileInode 0 1) s = .ok r ∧ r.1.pageNums = 0 ∧
          r.1.logTail = fileLog + 48 := by
      rw [hv, writeChunk]
      exact ⟨_, bind_eq_ok.2 ⟨_, halloc, bind_eq_ok.2 ⟨_, hentry, rfl⟩⟩, rfl, rfl⟩
    simp only at hnone hlog
    have hloop : writeLoop pageAllocator fileInode (fun _ => 0)
        ((writeVars s.mem fileInode 0 1).pageNums + 1) (writeVars s.mem fileInode 0 1) s =
          .ok (v₁, s₃) := by
      rw [writeLoop, if_pos (writeVars_pageNums_pos ..), hchunk, hv]
      change writeLoop pageAllocator fileInode (fun _ => 0) 1 v₁ s₃ = _
      rw [writeLoop, if_neg (by omega)]
    refine ⟨_, _, bind_eq_ok.2 ⟨_, hloop, rfl⟩, ?_⟩
    simp only [radixTree_mem, updateInodeTail, hlog]
    refine Field.get_set_self_of_lt _ _ ?_
    rw [fileLog, pageOff_eq]
    norm_num
  · rintro ⟨v, s₁, ret, s', hloop, htrace, -⟩
    have := writeLoop_trace_lt hloop (writeVars_pageNums_pos s.mem fileInode 0 1)
    rw [htrace] at this
    exact lt_irrefl _ this

end Atfs
