import Atfs.Gc.Basic
import Atfs.Io.Entries

/-!
# The byte ranges in the log

The end that `nvmio_write` records for an entry is its start plus the number of bytes
written. The start is rounded down to a page and the number is not, so for a write that
starts inside a page the end of the first entry falls short by the offset.
-/

namespace Atfs

open ByteMemory LinkedChain

/-- Where the bytes of the `k`-th chunk end. -/
def chunkEnd (cnt fileOff k : Nat) : Nat :=
  min (fileOff + cnt) (firstPage fileOff + 64 * 4096 * (k + 1))

/-- The collector gives every part of the entry a non-empty range, wherever it finds the entry. -/
def SplitsProperly (E : LogEntry) : Prop :=
  ∀ m, FileLogEntry.startWriteOff.get m E.off = E.startWriteOff →
    FileLogEntry.endWriteOff.get m E.off = E.endWriteOff →
    FileLogEntry.numPages.get m E.off = E.pages.length →
    ∀ k j, k < j → j ≤ E.pages.length → runStartWriteOff m E.off k < runEndWriteOff m E.off j

/-- The ranges recorded in the entries of a write are the bytes written. -/
structure RangesExact (cnt fileOff : Nat) (es : List LogEntry) : Prop where
  stop : ∀ k E, es[k]? = some E → E.endWriteOff = chunkEnd cnt fileOff k
  consecutive : ∀ k E E', es[k]? = some E → es[k + 1]? = some E' → E.endWriteOff = E'.startWriteOff
  last : ∀ E, es[es.length - 1]? = some E → E.endWriteOff = fileOff + cnt
  pages : ∀ E ∈ es, (E.endWriteOff + 4095) / 4096 - E.startWriteOff / 4096 = E.pages.length
  split : ∀ E ∈ es, SplitsProperly E

section Ranges

variable {A : PageAllocator} {R : RadixTree} {f : Frontier} {s s' : State} {buf : Memory}
  {inode cnt fileOff ret k : Nat} {m : Memory} {E : LogEntry} {es : List LogEntry}

/-- The recorded end of an entry, over the request. -/
theorem ChunkEntry.stop (h : ChunkEntry (writeVars m inode cnt fileOff) k E) (hpos : 1 ≤ cnt)
    (hb : fileOff + cnt < 2 ^ 64) (hk : 64 * k < pageCount cnt fileOff) :
    E.startWriteOff = firstPage fileOff + 64 * 4096 * k ∧
      E.pages.length = min 64 (pageCount cnt fileOff - 64 * k) ∧
      E.endWriteOff + (if k = 0 then fileOff % 4096 else 0) = chunkEnd cnt fileOff k ∧
      E.startWriteOff + 4096 * (E.pages.length - 1) < chunkEnd cnt fileOff k ∧
      chunkEnd cnt fileOff k ≤ E.startWriteOff + 4096 * E.pages.length := by
  obtain ⟨hlen, hs, -, he, -⟩ := h
  have hstart := writeVars_startPage m inode cnt (show fileOff < 2 ^ 64 by omega)
  have hoff := writeVars_offset m inode cnt fileOff
  have htotal : (writeVars m inode cnt fileOff).totalSize = cnt := rfl
  rw [writeVars_pageCount m inode hpos hb] at hlen
  have hfirst : firstPage fileOff = fileOff / 4096 * 4096 := rfl
  have hcount : pageCount cnt fileOff = (fileOff + cnt - 1) / 4096 - fileOff / 4096 + 1 := rfl
  have hend : chunkEnd cnt fileOff k =
      min (fileOff + cnt) (firstPage fileOff + 64 * 4096 * (k + 1)) := rfl
  rw [hoff] at he
  refine ⟨by omega, hlen, ?_, by omega, by omega⟩
  split_ifs at he ⊢ <;> omega

/-- An aligned entry whose end lies in its last page splits properly. -/
theorem splitsProperly_of_end (ha : E.startWriteOff % 4096 = 0)
    (hend : E.startWriteOff + 4096 * (E.pages.length - 1) < E.endWriteOff)
    (hb : E.endWriteOff < 2 ^ 64) : SplitsProperly E := by
  intro m hs he hn k j hkj hj
  have hmask : E.startWriteOff &&& pageMask = E.startWriteOff := by
    rw [and_pageMask (by omega)]
    omega
  have hstart : runStartWriteOff m E.off k = E.startWriteOff + 4096 * k := by
    rw [runStartWriteOff, hs, hmask, pageSize_eq, addU64_of_lt (by omega)]
    omega
  rw [hstart, runEndWriteOff, hs, he, hn, hmask, pageSize_eq]
  split_ifs with hlast
  · omega
  · rw [addU64_of_lt (by omega)]
    omega

/-- The entries a write appends, with their chunks. -/
theorem nvmioWrite_chunks (hpre : WritePre A f s inode cnt fileOff)
    (h : nvmioWrite A R s inode buf cnt fileOff = .ok (ret, s')) :
    ∃ es : List LogEntry, entriesOf s'.trace = entriesOf s.trace ++ es.map (·.off) ∧
      (∀ E ∈ es, E.Stored s'.mem) ∧ es.length = (pageCount cnt fileOff + 63) / 64 ∧
      ∀ k E, es[k]? = some E → ChunkEntry (writeVars s.mem inode cnt fileOff) k E := by
  obtain ⟨-, s₁, f', es, ts, evs, -, -, hsteps, hrec, -, hrun, -, hs'⟩ := nvmioWrite_run hpre h
  have htrace : s'.trace = s₁.trace := by rw [hs']
  refine ⟨es, ?_, hrun.stored, writeVars_chunks hpre.pos hpre.bound s.mem hrun.chunks⟩
  rw [htrace, hrec.entriesOf, hsteps.entriesOf]

/-- The ranges recorded by a write are exact if and only if it starts at a page boundary. -/
theorem nvmioWrite_ranges_iff (hpre : WritePre A f s inode cnt fileOff)
    (h : nvmioWrite A R s inode buf cnt fileOff = .ok (ret, s')) :
    ∃ es : List LogEntry, entriesOf s'.trace = entriesOf s.trace ++ es.map (·.off) ∧
      (∀ E ∈ es, E.Stored s'.mem) ∧ (RangesExact cnt fileOff es ↔ fileOff % 4096 = 0) := by
  have hpos := hpre.pos
  have hb := hpre.bound
  obtain ⟨es, htrace, hstored, hlen, hentry⟩ := nvmioWrite_chunks hpre h
  have hcount : 1 ≤ pageCount cnt fileOff := Nat.le_add_left _ _
  have hchunk (k : Nat) (E : LogEntry) (hE : es[k]? = some E) :=
    (hentry k E hE).stop hpos hb (by have := (List.getElem?_eq_some_iff.1 hE).1; omega)
  refine ⟨es, htrace, hstored, ?_, ?_⟩
  · -- the first entry ends too early by the offset
    intro hexact
    have h0 : 0 < es.length := by omega
    have hE := List.getElem?_eq_getElem h0
    obtain ⟨-, -, hend, -⟩ := hchunk 0 _ hE
    have := hexact.stop 0 _ hE
    rw [if_pos rfl] at hend
    omega
  · intro haligned
    have hstop (k : Nat) (E : LogEntry) (hE : es[k]? = some E) :
        E.endWriteOff = chunkEnd cnt fileOff k := by
      obtain ⟨-, -, hend, -⟩ := hchunk k E hE
      rwa [haligned, ite_self, Nat.add_zero] at hend
    have hfirst : firstPage fileOff = fileOff / 4096 * 4096 := rfl
    have hcnt : pageCount cnt fileOff = (fileOff + cnt - 1) / 4096 - fileOff / 4096 + 1 := rfl
    have hdef (k : Nat) : chunkEnd cnt fileOff k =
      min (fileOff + cnt) (firstPage fileOff + 64 * 4096 * (k + 1)) := rfl
    refine ⟨hstop, ?_, ?_, ?_, ?_⟩
    · intro k E E' hE hE'
      obtain ⟨hs', -⟩ := hchunk _ E' hE'
      have hk := (List.getElem?_eq_some_iff.1 hE').1
      have := hdef k
      rw [hstop k E hE, hs']
      omega
    · intro E hE
      have hk := (List.getElem?_eq_some_iff.1 hE).1
      have := hdef (es.length - 1)
      rw [hstop _ E hE]
      omega
    · intro E hE
      obtain ⟨k, hk, rfl⟩ := List.getElem_of_mem hE
      have hEk := List.getElem?_eq_getElem hk
      obtain ⟨hs, hl, -, hlow, hhigh⟩ := hchunk k _ hEk
      rw [hstop k _ hEk]
      omega
    · intro E hE
      obtain ⟨k, hk, rfl⟩ := List.getElem_of_mem hE
      have hEk := List.getElem?_eq_getElem hk
      obtain ⟨hs, -, -, hlow, -⟩ := hchunk k _ hEk
      have := hdef k
      refine splitsProperly_of_end (by omega) ?_ ?_
      · rwa [hstop k _ hEk]
      · rw [hstop k _ hEk]
        omega

/-- 5000 bytes from the start of a file. -/
theorem nvmioWrite_ranges_iff_start :
    ∃ ret s', nvmioWrite pageAllocator radixTree
        (fileState 0 (fun _ _ => 0) fun _ => offsetNull) fileInode UInt8.ofNat 5000 0 =
          .ok (ret, s') ∧
      ∃ es : List LogEntry, entriesOf s'.trace = es.map (·.off) ∧ RangesExact 5000 0 es := by
  have hmap : Mapped (fun _ => offsetNull) fileFrontier := fun k hk => absurd rfl hk
  obtain ⟨ret, s', h⟩ := fileState_write_ok 0 (fun _ _ => 0) hmap (show 1 ≤ 5000 by omega)
    (show 0 + 5000 < 2 ^ 64 by omega) (by omega) UInt8.ofNat
  have hpre := fileState_writePre 0 (fun _ _ => 0) hmap (show 1 ≤ 5000 by omega)
    (show 0 + 5000 < 2 ^ 64 by omega)
  obtain ⟨es, htrace, -, hexact⟩ := nvmioWrite_ranges_iff hpre h
  exact ⟨ret, s', h, es, htrace, hexact.2 rfl⟩

/-- 4096 bytes from position 100 on end at 4196; the entry says 4096, so the collector would
give its second page an empty range. -/
theorem nvmioWrite_ranges_short :
    ∃ ret s', nvmioWrite pageAllocator radixTree
        (fileState 0 (fun _ _ => 0) fun _ => offsetNull) fileInode UInt8.ofNat 4096 100 =
          .ok (ret, s') ∧
      ∃ E : LogEntry, entriesOf s'.trace = [E.off] ∧ E.Stored s'.mem ∧ E.endWriteOff = 4096 ∧
        runStartWriteOff s'.mem E.off 1 = runEndWriteOff s'.mem E.off 2 ∧
        ¬ RangesExact 4096 100 [E] := by
  have hmap : Mapped (fun _ => offsetNull) fileFrontier := fun k hk => absurd rfl hk
  obtain ⟨ret, s', h⟩ := fileState_write_ok 0 (fun _ _ => 0) hmap (show 1 ≤ 4096 by omega)
    (show 100 + 4096 < 2 ^ 64 by omega) (by omega) UInt8.ofNat
  have hpre := fileState_writePre 0 (fun _ _ => 0) hmap (show 1 ≤ 4096 by omega)
    (show 100 + 4096 < 2 ^ 64 by omega)
  obtain ⟨es, htrace, hstored, hlen, hentry⟩ := nvmioWrite_chunks hpre h
  obtain ⟨E, rfl⟩ : ∃ E, es = [E] := List.length_eq_one_iff.1 hlen
  have hE := hstored E (by simp)
  obtain ⟨hs, hl, he, -⟩ := (hentry 0 E rfl).stop hpre.pos hpre.bound (by decide)
  have hcount : pageCount 4096 100 = 2 := rfl
  have hend : chunkEnd 4096 100 0 = 4196 := rfl
  have hfirst : firstPage 100 = 0 := rfl
  rw [if_pos rfl] at he
  have hstart : E.startWriteOff = 0 := by omega
  have hpages : E.pages.length = 2 := by omega
  have hstop : E.endWriteOff = 4096 := by omega
  refine ⟨ret, s', h, E, htrace, hE, hstop, ?_, fun hexact => ?_⟩
  · rw [runStartWriteOff, runEndWriteOff, hE.words.startWriteOff, hE.words.endWriteOff,
      hE.words.numPages, hstart, hpages, if_pos rfl, hstop]
    rfl
  · have := hexact.stop 0 E rfl
    omega

end Ranges

end Atfs
