import Atfs.Io.Contents

/-!
# The entries of a write

How many entries a write appends, and what each of them says. The variables of the loop
stay in step, so every entry is given in closed form.
-/

namespace Atfs

open ByteMemory LinkedChain

/-! ## The chunks in closed form -/

/-- The `k`-th entry of a write with the variables `v`. -/
structure ChunkEntry (v : WriteVars) (k : Nat) (E : LogEntry) : Prop where
  length : E.pages.length = min 64 (v.pageNums - 64 * k)
  startWriteOff : E.startWriteOff = v.startPage + 4096 * 64 * k
  fileSize : E.fileSize = max v.fileSize
    (min (v.startPage + v.offset + v.totalSize) (E.startWriteOff + 4096 * E.pages.length))
  /-- The end recorded for the first chunk does not count the offset in its first page. -/
  endWriteOff : E.endWriteOff + (if k = 0 then v.offset else 0) =
    min (v.startPage + v.offset + v.totalSize) (E.startWriteOff + 4096 * E.pages.length)
  valid : E.invalidPages = 0 ∧ E.bitmap = 0

section Chunks

variable {v : WriteVars} {es : List LogEntry} {E : LogEntry} {userBuf logTail : Nat}

/-- The entry of the first round. -/
theorem WriteVars.Valid.chunkEntry_zero (hv : v.Valid) (hoff : v.fileOff = v.startPage + v.offset)
    (hb : v.startPage + v.offset + v.totalSize < 2 ^ 64) (length : E.pages.length = v.allocNum)
    (startWriteOff : E.startWriteOff = v.startPage)
    (endWriteOff : E.endWriteOff = addU64 v.startPage (chunkSize v v.allocNum))
    (fileSize : E.fileSize = (v.next userBuf logTail).fileSize)
    (valid : E.invalidPages = 0 ∧ E.bitmap = 0) : ChunkEntry v 0 E := by
  have hn := v.allocNum_eq
  have hw := chunkSize_eq v v.allocNum
  have := hv.pageNums
  have := hv.offset_lt
  have hwrap : v.startPage + chunkSize v v.allocNum < 2 ^ 64 := by omega
  refine ⟨by omega, by omega, ?_, ?_, valid⟩
  · have hend : addU64 v.fileOff (chunkSize v v.allocNum) = v.fileOff + chunkSize v v.allocNum :=
      addU64_of_lt (by omega)
    rw [fileSize, WriteVars.next]
    simp only [hend]
    split_ifs <;> omega
  · rw [if_pos rfl, endWriteOff, addU64_of_lt hwrap]
    omega

/-- The variables of the next round describe the rest of the same write. -/
theorem WriteVars.Valid.next_closed (hv : v.Valid) (h : 64 < v.pageNums)
    (hoff : v.fileOff = v.startPage + v.offset)
    (hb : v.startPage + v.offset + v.totalSize < 2 ^ 64) (userBuf logTail : Nat) :
    (v.next userBuf logTail).fileOff =
        (v.next userBuf logTail).startPage + (v.next userBuf logTail).offset ∧
      (v.next userBuf logTail).startPage = v.startPage + 4096 * 64 ∧
      (v.next userBuf logTail).offset = 0 ∧
      (v.next userBuf logTail).pageNums = v.pageNums - 64 ∧
      (v.next userBuf logTail).startPage + (v.next userBuf logTail).totalSize =
        v.startPage + v.offset + v.totalSize ∧
      (v.next userBuf logTail).fileSize = max v.fileSize (v.startPage + 4096 * 64) := by
  have hfull := hv.chunkSize_full h
  have hstart := hv.next_startPage h userBuf logTail
  have hn := v.allocNum_eq
  have hend : addU64 v.fileOff (chunkSize v v.allocNum) = v.fileOff + chunkSize v v.allocNum :=
    addU64_of_lt (by omega)
  refine ⟨?_, hstart, rfl, ?_, ?_, ?_⟩
  · rw [hstart, WriteVars.next]
    simp only [hend]
    omega
  · rw [WriteVars.next]
    simp only
    omega
  · rw [hstart, WriteVars.next]
    simp only
    omega
  · rw [WriteVars.next]
    simp only [hend]
    split_ifs <;> omega

/-- Every entry of a write in closed form, and how many there are. -/
theorem Chunks.entry (h : Chunks v es) (hv : v.Valid) (hoff : v.fileOff = v.startPage + v.offset)
    (hb : v.startPage + v.offset + v.totalSize < 2 ^ 64) :
    es.length = (v.pageNums + 63) / 64 ∧ ∀ k E, es[k]? = some E → ChunkEntry v k E := by
  induction h with
  | done h =>
    rw [h]
    exact ⟨rfl, by simp⟩
  | @chunk v E es userBuf logTail pos length startWriteOff endWriteOff fileSize valid rest ih =>
    have first := hv.chunkEntry_zero hoff hb length startWriteOff endWriteOff fileSize valid
    by_cases hmore : 64 < v.pageNums
    · obtain ⟨hoff', hstart, hzero, hnums, htotal, hsize⟩ :=
        hv.next_closed hmore hoff hb userBuf logTail
      obtain ⟨hlen, hrest⟩ := ih (hv.next hmore _ _) hoff' (by omega)
      refine ⟨by rw [List.length_cons]; omega, fun k E' hE' => ?_⟩
      cases k with
      | zero =>
        obtain rfl : E = E' := by simpa using hE'
        exact first
      | succ k =>
        obtain ⟨hl, hs, hf, he, hvalid⟩ := hrest k E' (by simpa using hE')
        have := hv.startPage_bound
        refine ⟨by omega, by omega, by omega, ?_, hvalid⟩
        rw [hzero] at he
        rw [if_neg (Nat.succ_ne_zero k)]
        split_ifs at he <;> omega
    · have hnil : es = [] := by
        have hzero : (v.next userBuf logTail).pageNums = 0 := by
          have := v.allocNum_eq
          rw [WriteVars.next]
          simp only
          omega
        cases rest with
        | done => rfl
        | chunk _ _ pos => omega
      subst hnil
      refine ⟨by rw [List.length_singleton]; omega, fun k E' hE' => ?_⟩
      cases k with
      | zero =>
        obtain rfl : E = E' := by simpa using hE'
        exact first
      | succ k => simp at hE'

end Chunks

/-! ## What the entries say -/

/-- The `k`-th entry of a write of `cnt` bytes at `file_off` to a file of `i_size` bytes, as it
stands in memory `m`. -/
structure WrittenEntry (iSize cnt fileOff k : Nat) (m : Memory) (E : LogEntry) : Prop where
  stored : E.Stored m
  numPages : E.pages.length = min 64 (pageCount cnt fileOff - 64 * k)
  startWriteOff : E.startWriteOff = firstPage fileOff + 64 * 4096 * k
  fileSize : E.fileSize =
    max iSize (min (fileOff + cnt) (E.startWriteOff + 4096 * E.pages.length))
  bitmap : E.bitmap = 0
  invalidPages : E.invalidPages = 0
  backPointer : ∀ q ∈ E.pages, ListNode.logEntry.get m (q + 4096) = E.off

section Entries

variable {A : PageAllocator} {R : RadixTree} {f : Frontier} {s s' : State} {buf : Memory}
  {inode cnt fileOff ret : Nat}

theorem writeVars_pageCount (m : Memory) (inode : Nat) (hpos : 1 ≤ cnt)
    (hb : fileOff + cnt < 2 ^ 64) :
    (writeVars m inode cnt fileOff).pageNums = pageCount cnt fileOff := by
  rw [writeVars_pageNums m inode hpos hb, pageCount]
  omega

/-- The entries of a write, in closed form over the request. -/
theorem writeVars_chunks {es : List LogEntry} (hpos : 1 ≤ cnt) (hb : fileOff + cnt < 2 ^ 64)
    (m : Memory) (h : Chunks (writeVars m inode cnt fileOff) es) :
    es.length = (pageCount cnt fileOff + 63) / 64 ∧
      ∀ k E, es[k]? = some E → ChunkEntry (writeVars m inode cnt fileOff) k E := by
  have hv := writeVars_valid m inode hpos hb
  have hstart := writeVars_startPage m inode cnt (show fileOff < 2 ^ 64 by omega)
  have hoff := writeVars_offset m inode cnt fileOff
  have hfile : (writeVars m inode cnt fileOff).fileOff = fileOff := rfl
  have htotal : (writeVars m inode cnt fileOff).totalSize = cnt := rfl
  have := h.entry hv (by omega) (by omega)
  rwa [writeVars_pageCount m inode hpos hb] at this

theorem ChunkEntry.written {k : Nat} {E : LogEntry} {m m' : Memory}
    (h : ChunkEntry (writeVars m inode cnt fileOff) k E) (hpos : 1 ≤ cnt)
    (hb : fileOff + cnt < 2 ^ 64) (hstored : E.Stored m')
    (hback : ∀ q ∈ E.pages, ListNode.logEntry.get m' (q + 4096) = E.off) :
    WrittenEntry (AtfsInode.iSize.get m inode) cnt fileOff k m' E := by
  obtain ⟨hlen, hs, hf, -, hvalid⟩ := h
  have hstart := writeVars_startPage m inode cnt (show fileOff < 2 ^ 64 by omega)
  have hoff := writeVars_offset m inode cnt fileOff
  have hsize : (writeVars m inode cnt fileOff).fileSize = AtfsInode.iSize.get m inode := rfl
  have htotal : (writeVars m inode cnt fileOff).totalSize = cnt := rfl
  rw [writeVars_pageCount m inode hpos hb] at hlen
  have hfirst : firstPage fileOff = fileOff / 4096 * 4096 := rfl
  exact ⟨hstored, hlen, by omega, by omega, hvalid.2, hvalid.1, hback⟩

/-- A write fails only for want of pages, and otherwise appends one entry for every 64 pages of
its range. Each entry describes its pages, which no other entry owns, and the parts of its
round go through them once. -/
theorem nvmioWrite_entries (hpre : WritePre A f s inode cnt fileOff) :
    (∀ e, nvmioWrite A R s inode buf cnt fileOff = .error e → e = .noPages) ∧
    ∀ ret s', nvmioWrite A R s inode buf cnt fileOff = .ok (ret, s') →
      ∃ es : List LogEntry,
        entriesOf s'.trace = entriesOf s.trace ++ es.map (·.off) ∧
        es.length = (pageCount cnt fileOff + 63) / 64 ∧
        (∀ k E, es[k]? = some E →
          WrittenEntry (AtfsInode.iSize.get s.mem inode) cnt fileOff k s'.mem E) ∧
        (pagesOf es).Nodup ∧ (∀ q ∈ pagesOf es, q ∈ f.free) ∧
        List.Forall₂ (RoundOf A buf) es (writeRounds A inode buf
          ((writeVars s.mem inode cnt fileOff).pageNums + 1)
            (writeVars s.mem inode cnt fileOff) s) := by
  refine ⟨fun e => nvmioWrite_error, ?_⟩
  intro ret s' h
  obtain ⟨-, s₁, f', es, ts, evs, -, -, hsteps, hrec, hrounds, hrun, -, hs'⟩ :=
    nvmioWrite_run hpre h
  obtain ⟨hlen, hentry⟩ := writeVars_chunks hpre.pos hpre.bound s.mem hrun.chunks
  refine ⟨es, ?_, hlen, fun k E hE => ?_, hrun.nodup, fun q hq => (hrun.fresh q hq).1, hrounds⟩
  · have htrace : s'.trace = s₁.trace := by rw [hs']
    rw [htrace, hrec.entriesOf, hsteps.entriesOf]
  · have hmem := List.mem_of_getElem? hE
    exact (hentry k E hE).written hpre.pos hpre.bound (hrun.stored E hmem) (hrun.backPointer E hmem)

/-- 5000 bytes from position 5 on take one entry of two pages. -/
theorem nvmioWrite_entries_sample :
    ∃ ret s', nvmioWrite pageAllocator radixTree
        (fileState 8192 (fun _ _ => 0) fun _ => offsetNull) fileInode UInt8.ofNat 5000 5 =
          .ok (ret, s') ∧
      ∃ E : LogEntry, entriesOf s'.trace = [E.off] ∧ E.pages.length = 2 ∧ E.startWriteOff = 0 ∧
        E.fileSize = 8192 := by
  have hmap : Mapped (fun _ => offsetNull) fileFrontier := fun k hk => absurd rfl hk
  obtain ⟨ret, s', h⟩ := fileState_write_ok 8192 (fun _ _ => 0) hmap (show 1 ≤ 5000 by omega)
    (show 5 + 5000 < 2 ^ 64 by omega) (by omega) UInt8.ofNat
  have hpre := fileState_writePre 8192 (fun _ _ => 0) hmap (show 1 ≤ 5000 by omega)
    (show 5 + 5000 < 2 ^ 64 by omega)
  obtain ⟨es, htrace, hlen, hentry, -⟩ := (nvmioWrite_entries hpre).2 ret s' h
  obtain ⟨E, rfl⟩ : ∃ E, es = [E] := List.length_eq_one_iff.1 hlen
  obtain ⟨-, hnum, hstart, hsize, -⟩ := hentry 0 E rfl
  rw [fileState_iSize (by omega)] at hsize
  have hcount : pageCount 5000 5 = 2 := rfl
  have hfirst : firstPage 5 = 0 := rfl
  exact ⟨ret, s', h, E, htrace, by omega, by omega, by omega⟩

end Entries

end Atfs
