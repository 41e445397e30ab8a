import Atfs.Io.Write

/-!
# Reading back

`fileByte` is what the index and the pages say about one byte of a file. `nvmio_read`
returns exactly these bytes, and after `nvmio_write` they are the bytes written.
-/

namespace Atfs

open ByteMemory LinkedChain

/-- The byte at position `x` of a file; pages without an entry in the index are zero. -/
def fileByte (s : State) (inode x : Nat) : UInt8 :=
  let p := s.index inode (x / 4096 * 4096)
  if p ≠ offsetNull then s.mem (p + x % 4096) else 0

/-! ## The loop of `nvmio_read` -/

/-- The variables fit a read that does not wrap. -/
structure ReadVars.Valid (v : ReadVars) : Prop where
  offset_lt : v.offset < 4096
  aligned : v.startPage % 4096 = 0
  bound : v.startPage + v.offset + v.totalSize < 2 ^ 64

section Loop

variable {s : State} {inode fuel : Nat} {v v' : ReadVars}

/-- How much a round reads. -/
def ReadVars.rdSize (v : ReadVars) : Nat := min v.totalSize (4096 - v.offset)

theorem readChunk_eq (v : ReadVars) : readChunk s inode v =
    { offset := 0
      startPage := addU64 v.startPage pageSize
      totalSize := v.totalSize - v.rdSize
      userBuf := v.userBuf + v.rdSize
      buf := if s.index inode v.startPage ≠ offsetNull then
          copy v.buf v.userBuf s.mem (s.index inode v.startPage + v.offset) v.rdSize
        else fill v.buf v.userBuf v.rdSize 0 } := by
  have size : (if v.offset ≠ 0 then
      if v.totalSize < pageSize - v.offset then v.totalSize else pageSize - v.offset
      else if v.totalSize < pageSize then v.totalSize else pageSize) = v.rdSize := by
    rw [ReadVars.rdSize, pageSize_eq]
    split_ifs <;> omega
  rw [readChunk, size]

variable (s inode) in
/-- A round reads the bytes of one page. -/
theorem readChunk_buf (hv : v.Valid) (a : Nat) : (readChunk s inode v).buf a =
    if v.userBuf ≤ a ∧ a < v.userBuf + v.rdSize then
      fileByte s inode (v.startPage + v.offset + (a - v.userBuf)) else v.buf a := by
  obtain ⟨hlt, hal, -⟩ := hv
  rw [readChunk_eq]
  simp only
  by_cases ha : v.userBuf ≤ a ∧ a < v.userBuf + v.rdSize
  · have hsize : v.rdSize ≤ 4096 - v.offset := min_le_right _ _
    have hpage : (v.startPage + v.offset + (a - v.userBuf)) / 4096 * 4096 = v.startPage := by omega
    have hpos : (v.startPage + v.offset + (a - v.userBuf)) % 4096 = v.offset + (a - v.userBuf) := by
      omega
    rw [if_pos ha, fileByte, hpage, hpos]
    split_ifs with hmap
    · rw [copy_apply_of_inside _ _ ha.1 ha.2, Nat.add_assoc]
    · exact fill_apply_of_inside _ ha.1 ha.2
  · rw [if_neg ha]
    split_ifs with hmap
    · exact copy_apply_of_outside _ _ (by omega)
    · exact fill_apply_of_outside _ (by omega)

variable (s inode) in
theorem ReadVars.Valid.next (hv : v.Valid) (h : v.rdSize < v.totalSize) :
    (readChunk s inode v).Valid ∧ (readChunk s inode v).startPage = v.startPage + 4096 ∧
      v.offset + v.rdSize = 4096 := by
  obtain ⟨hlt, hal, hb⟩ := hv
  have hsize : v.rdSize = min v.totalSize (4096 - v.offset) := rfl
  have hstart : (readChunk s inode v).startPage = v.startPage + 4096 := by
    rw [readChunk_eq]
    exact addU64_of_lt (by rw [pageSize_eq]; omega)
  have htotal : (readChunk s inode v).totalSize = v.totalSize - v.rdSize := by rw [readChunk_eq]
  have hoffset : (readChunk s inode v).offset = 0 := by rw [readChunk_eq]
  refine ⟨⟨by omega, by omega, by omega⟩, hstart, by omega⟩

variable (s inode) in
/-- The loop of `nvmio_read` ends and has read every byte of the range. -/
theorem readLoop_spec (hv : v.Valid) (hfuel : v.totalSize < fuel) :
    ∃ v', readLoop s inode fuel v = .ok v' ∧ ∀ a, v'.buf a =
      if v.userBuf ≤ a ∧ a < v.userBuf + v.totalSize then
        fileByte s inode (v.startPage + v.offset + (a - v.userBuf)) else v.buf a := by
  induction fuel generalizing v with
  | zero => omega
  | succ fuel ih =>
    rw [readLoop]
    by_cases hpos : v.totalSize > 0
    · rw [if_pos hpos]
      have hlt := hv.offset_lt
      have hsize : v.rdSize = min v.totalSize (4096 - v.offset) := rfl
      have hbuf := readChunk_buf s inode hv
      have htotal : (readChunk s inode v).totalSize = v.totalSize - v.rdSize := by rw [readChunk_eq]
      have huser : (readChunk s inode v).userBuf = v.userBuf + v.rdSize := by rw [readChunk_eq]
      by_cases hmore : v.rdSize < v.totalSize
      · obtain ⟨hv₁, hstart, hfull⟩ := hv.next s inode hmore
        have hoffset : (readChunk s inode v).offset = 0 := by rw [readChunk_eq]
        obtain ⟨v', hloop, hv'⟩ := ih hv₁ (by omega)
        refine ⟨v', hloop, fun a => ?_⟩
        rw [hv' a, hbuf a, huser, htotal, hstart, hoffset]
        split_ifs with h1 h2 h3 h4
        · exact congrArg (fileByte s inode) (by omega)
        · omega
        · rfl
        · omega
        · omega
        · rfl
      · -- nothing is left, so the next test ends the loop
        obtain ⟨fuel, rfl⟩ : ∃ k, fuel = k + 1 := ⟨fuel - 1, by omega⟩
        refine ⟨readChunk s inode v, ?_, fun a => ?_⟩
        · rw [readLoop, if_neg (by omega)]
        · rw [hbuf a, show v.rdSize = v.totalSize by omega]
    · refine ⟨v, if_neg hpos, fun a => ?_⟩
      rw [if_neg (by omega)]

/-- A request within `i_size` returns the bytes of the file. -/
theorem nvmioRead_spec {cnt fileOff : Nat} (hb : fileOff + cnt < 2 ^ 64)
    (hsize : fileOff + cnt ≤ AtfsInode.iSize.get s.mem inode) (buf : Memory) :
    ∃ buf', nvmioRead s inode buf cnt fileOff = .ok (cnt, buf') ∧
      ∀ a, buf' a = if a < cnt then fileByte s inode (fileOff + a) else buf a := by
  rw [nvmioRead, addU64_of_lt hb, if_neg (by omega), and_pageOffsetMask, and_pageMask (by omega)]
  obtain ⟨v', hloop, hbuf⟩ := readLoop_spec s inode
    (v := ⟨fileOff % 4096, fileOff / 4096 * 4096, cnt, 0, buf⟩)
    ⟨by simp only; omega, by simp only; omega, by simp only; omega⟩ (Nat.lt_succ_self cnt)
  refine ⟨v'.buf, by rw [hloop]; rfl, fun a => ?_⟩
  rw [hbuf a]
  simp only [Nat.zero_le, true_and, Nat.zero_add, Nat.sub_zero]
  rw [show fileOff / 4096 * 4096 + fileOff % 4096 + a = fileOff + a by omega]

/-- Any other request is turned down. -/
theorem nvmioRead_oversize {cnt fileOff : Nat} (hb : fileOff + cnt < 2 ^ 64)
    (hsize : AtfsInode.iSize.get s.mem inode < fileOff + cnt) (buf : Memory) :
    nvmioRead s inode buf cnt fileOff = .ok (-1, buf) := by
  rw [nvmioRead, addU64_of_lt hb, if_pos hsize]

end Loop

/-! ## Reading what was written -/

section ReadBack

variable {A : PageAllocator} {R : RadixTree} {f : Frontier} {s s' : State} {buf : Memory}
  {inode cnt fileOff ret : Nat}

/-- The page of the write that holds byte `x` of the file. -/
theorem WriteRun.page_at {D : Set Nat} {f' : Frontier} {m m' : Memory} {index : Nat → Nat}
    {es : List LogEntry} {ts : List Nat}
    (h : WriteRun A D buf index f f' (writeVars m inode cnt fileOff) m m' es ts) (hpos : 1 ≤ cnt)
    (hb : fileOff + cnt < 2 ^ 64) {x : Nat} (hx : fileOff / 4096 * 4096 ≤ x)
    (hx' : x / 4096 * 4096 < fileOff + cnt) :
    ∃ i q, (pagesOf es)[i]? = some q ∧ IsPage q ∧ x / 4096 = fileOff / 4096 + i ∧
      indexEntries m' index (es.map (·.off)) (x / 4096 * 4096) = q := by
  have hv := writeVars_valid m inode hpos hb
  have hlen := h.length
  rw [writeVars_pageNums m inode hpos hb] at hlen
  have hi : x / 4096 - fileOff / 4096 < (pagesOf es).length := by omega
  refine ⟨x / 4096 - fileOff / 4096, _, List.getElem?_eq_getElem hi, ?_, by omega, ?_⟩
  · obtain ⟨E, hE, hqE⟩ := mem_pagesOf.1 (List.getElem_mem hi)
    exact (h.stored E hE).chain.page _ hqE
  · refine (h.index_apply hv _).1 _ _ (List.getElem?_eq_getElem hi) ?_
    rw [writeVars_startPage m inode cnt (by omega)]
    omega

/-- The write itself sets nothing in the inode but the tail. -/
theorem nvmioWrite_inodeField (hpre : WritePre A f s inode cnt fileOff)
    (h : nvmioWrite A R s inode buf cnt fileOff = .ok (ret, s')) (g : Field 216)
    (hg : g.off + g.size ≤ 64 ∨ 72 ≤ g.off) : g.get s'.mem inode = g.get s.mem inode := by
  obtain ⟨-, f', es, ts, hrun, -⟩ := nvmioWrite_spec hpre h
  obtain ⟨p, hp, hpF, hpT, hle, hle'⟩ := hpre.inodePage
  rw [show sizeofAtfsInode = 216 from rfl] at hle'
  refine Field.get_congr fun a ha => ?_
  have := g.fits
  rw [Field.bytes, Set.mem_Ico] at ha
  refine hrun.step.keeps hpre.holds hp hpF hpT (by rw [mem_pageBytes]; omega) ?_
  simp only [Field.bytes, AtfsInode.logTail_off, AtfsInode.logTail_size, Set.mem_Ico]
  omega

/-- The bytes of the inode that `update_inode_info` sets. -/
def infoBytes (inode : Nat) : Set Nat := AtfsInode.iSize.bytes inode ∪ AtfsInode.fileOff.bytes inode

/-- The size and the position of an inode lie in no other page. -/
theorem InodePage.infoBytes_apart {p q a : Nat} (h : InodePage f inode p) (hq : IsPage q)
    (hne : q ≠ p) (ha : a ∈ pageBytes q) : a ∉ infoBytes inode := by
  obtain ⟨hp, -, -, hle, hle'⟩ := h
  rw [show sizeofAtfsInode = 216 from rfl] at hle'
  have := hq.apart hp hne
  rw [mem_pageBytes] at ha
  simp only [infoBytes, Field.bytes, AtfsInode.iSize_off, AtfsInode.iSize_size,
    AtfsInode.fileOff_off, AtfsInode.fileOff_size, Set.mem_union, Set.mem_Ico]
  omega

/-- After a write the bytes of its range are the bytes written, also once the size and the
position of the inode are set. -/
theorem fileByte_nvmioWrite (hpre : WritePre A f s inode cnt fileOff)
    (h : nvmioWrite A R s inode buf cnt fileOff = .ok (ret, s')) {m' : Memory}
    (hm' : ChangesOnly (infoBytes inode) s'.mem m') {x : Nat} (hx : fileOff ≤ x)
    (hx' : x < fileOff + cnt) :
    fileByte { s' with mem := m' } inode x = buf (x - fileOff) := by
  obtain ⟨-, f', es, ts, hrun, -, hindex⟩ := nvmioWrite_spec hpre h
  obtain ⟨i, q, hq, hpage, hi, hkey⟩ := hrun.page_at hpre.pos hpre.bound (x := x)
    (by omega) (by omega)
  obtain ⟨p, hinode⟩ := hpre.inodePage
  have hmod := Nat.mod_lt x (show 0 < 4096 by omega)
  have hoff := writeVars_offset s.mem inode cnt fileOff
  have htotal : (writeVars s.mem inode cnt fileOff).totalSize = cnt := rfl
  have hbyte := hrun.written.inside i q hq (x % 4096) hmod (by omega) (by omega)
  have hne : q ≠ p := by
    rintro rfl
    exact hinode.2.1 (hrun.fresh q (List.mem_of_getElem? hq)).1
  have hkeep : m' (q + x % 4096) = s'.mem (q + x % 4096) :=
    hm' _ (hinode.infoBytes_apart hpage hne (by rw [mem_pageBytes]; omega))
  rw [fileByte, hindex, Function.update_self, hkey, if_pos hpage.ne_offsetNull]
  refine (hkeep.trans hbyte).trans (congrArg buf ?_)
  rw [hoff]
  rw [show (writeVars s.mem inode cnt fileOff).userBuf = 0 from rfl]
  omega

end ReadBack

end Atfs
