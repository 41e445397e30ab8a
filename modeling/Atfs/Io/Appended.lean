import Atfs.Io.Entries
import Atfs.Io.History
import Atfs.Io.Zero

/-!
# What a write appends

`nvmio_write` seen by its callers: the entries it appends, the newest of which records the
size of the file, and the keys of the index it sets. This also covers writes of no bytes:
one that starts inside a page takes a page all the same, and one that starts at a page
boundary asks for more pages than there are.
-/

namespace Atfs

open ByteMemory LinkedChain

/-- An inode between two calls: the pages of its index, the last page of its log and its own
page are in use. -/
structure Ready (A : PageAllocator) (f : Frontier) (s : State) (inode : Nat) : Prop where
  holds : f.Holds A s.mem
  tail : AtfsInode.logTail.get s.mem inode = f.tail
  inodePage : ∃ p, InodePage f inode p
  mapped : Mapped (s.index inode) f

/-- From `s` to `s'` a write of `cnt` bytes at `file_off` has appended the entries `es`. -/
structure Appended (A : PageAllocator) (inode cnt fileOff : Nat) (f f' : Frontier) (s s' : State)
    (es : List LogEntry) : Prop where
  frame : ∃ ts, LogStep A (AtfsInode.logTail.bytes inode) f f' ts s.mem s'.mem
  tail : AtfsInode.logTail.get s'.mem inode = f'.tail
  stored : ∀ E ∈ es, E.Stored s'.mem
  place : ∀ E ∈ es, ∃ T, IsPage T ∧ (T = f.page ∨ T ∈ f.free) ∧ T ≤ E.off ∧ E.off + 48 ≤ T + 4096
  fresh : ∀ q ∈ pagesOf es, q ∈ f.free ∧ q ∉ f'.free ∧ q ≠ f'.page
  chunks : Chunks (writeVars s.mem inode cnt fileOff) es
  /-- The newest entry ends at the new tail and records the size of the file. -/
  newest : ∃ E, es.getLast? = some E ∧ f'.page ≤ E.off ∧ f'.tail = E.off + 48 ∧
    E.fileSize = max (AtfsInode.iSize.get s.mem inode) (fileOff + cnt)
  trace : entriesOf s'.trace = entriesOf s.trace ++ es.map (·.off)
  other : ∀ i, i ≠ inode → s'.index i = s.index i
  inside : ∀ i q key, (pagesOf es)[i]? = some q → key = firstPage fileOff + 4096 * i →
    s'.index inode key = q
  outside : ∀ key, (∀ i < (pagesOf es).length, key ≠ firstPage fileOff + 4096 * i) →
    s'.index inode key = s.index inode key

section Ready

variable {A : PageAllocator} {f : Frontier} {s s' : State} {inode cnt fileOff : Nat}

theorem Ready.writePre (h : Ready A f s inode) (hpos : 1 ≤ cnt) (hb : fileOff + cnt < 2 ^ 64) :
    WritePre A f s inode cnt fileOff where
  holds := h.holds
  tail := h.tail
  inodePage := h.inodePage
  mapped := h.mapped
  pos := hpos
  bound := hb

/-- Setting the size and the position of the inode keeps it ready. -/
theorem Ready.info (h : Ready A f s inode) {m' : Memory}
    (hm : ChangesOnly (infoBytes inode) s.mem m') :
    Ready A f { s with mem := m' } inode := by
  obtain ⟨p, hp⟩ := h.inodePage
  exact ⟨h.holds.congr hm hp.1 hp.2.1 hp.infoBytes_subset, (logTail_congr hm).trans h.tail, ⟨p, hp⟩,
    h.mapped⟩

theorem InodePage.step {D : Set Nat} {f' : Frontier} {ts : List Nat} {m m' : Memory} {p : Nat}
    (h : InodePage f inode p) (hs : LogStep A D f f' ts m m') : InodePage f' inode p := by
  obtain ⟨hp, hpF, hpT, hle⟩ := h
  refine ⟨hp, fun hc => hpF (hs.sub hc), ?_, hle⟩
  rintro rfl
  rcases hs.moved with ⟨hT, -⟩ | hT
  · exact hpT hT
  · exact hpF hT

/-- A write keeps the inode ready. -/
theorem Ready.append {f' : Frontier} {es : List LogEntry} (h : Ready A f s inode)
    (ha : Appended A inode cnt fileOff f f' s s' es) : Ready A f' s' inode := by
  obtain ⟨ts, hstep⟩ := ha.frame
  refine ⟨hstep.holds, ha.tail, h.inodePage.imp fun p hp => hp.step hstep, fun key hkey => ?_⟩
  by_cases hin : ∃ i < (pagesOf es).length, key = firstPage fileOff + 4096 * i
  · obtain ⟨i, hi, hkey'⟩ := hin
    have hq := List.getElem_mem hi
    rw [ha.inside i _ key (List.getElem?_eq_getElem hi) hkey']
    exact ⟨A.rep_page h.holds.rep _ (ha.fresh _ hq).1, (ha.fresh _ hq).2⟩
  · rw [ha.outside key fun i hi hc => hin ⟨i, hi, hc⟩] at hkey ⊢
    exact h.mapped.step hstep key hkey

/-- A write sets nothing in the inode but the tail. -/
theorem Appended.inodeField {f' : Frontier} {es : List LogEntry}
    (ha : Appended A inode cnt fileOff f f' s s' es) (h : Ready A f s inode) (g : Field 216)
    (hg : g.off + g.size ≤ 64 ∨ 72 ≤ g.off) : g.get s'.mem inode = g.get s.mem inode := by
  obtain ⟨ts, hstep⟩ := ha.frame
  obtain ⟨p, hp, hpF, hpT, hle, hle'⟩ := h.inodePage
  rw [show sizeofAtfsInode = 216 from rfl] at hle'
  refine Field.get_congr fun a ha => ?_
  have := g.fits
  rw [Field.bytes, Set.mem_Ico] at ha
  refine hstep.keeps h.holds hp hpF hpT (by rw [mem_pageBytes]; omega) ?_
  simp only [Field.bytes, AtfsInode.logTail_off, AtfsInode.logTail_size, Set.mem_Ico]
  omega

end Ready

/-! ## Writes of at least one byte -/

section Write

variable {A : PageAllocator} {R : RadixTree} {f : Frontier} {s s' : State} {buf : Memory}
  {inode cnt fileOff ret : Nat}

/-- The last entry of a write records the size of the file. -/
theorem writeVars_fileSize {es : List LogEntry} {E : LogEntry} {m : Memory} (hpos : 1 ≤ cnt)
    (hb : fileOff + cnt < 2 ^ 64) (h : Chunks (writeVars m inode cnt fileOff) es)
    (hE : es.getLast? = some E) :
    E.fileSize = max (AtfsInode.iSize.get m inode) (fileOff + cnt) := by
  obtain ⟨hlen, hentry⟩ := writeVars_chunks hpos hb m h
  rw [List.getLast?_eq_getElem?] at hE
  obtain ⟨hnum, hstart, hsize, -⟩ := hentry _ E hE
  have hfirst := writeVars_startPage m inode cnt (show fileOff < 2 ^ 64 by omega)
  have hoff := writeVars_offset m inode cnt fileOff
  have hold : (writeVars m inode cnt fileOff).fileSize = AtfsInode.iSize.get m inode := rfl
  have htotal : (writeVars m inode cnt fileOff).totalSize = cnt := rfl
  rw [writeVars_pageNums m inode hpos hb] at hnum
  rw [hlen, pageCount] at hnum hstart
  omega

theorem Ready.appended_pos (h : Ready A f s inode) (hpos : 1 ≤ cnt) (hb : fileOff + cnt < 2 ^ 64)
    (hrun : nvmioWrite A R s inode buf cnt fileOff = .ok (ret, s')) :
    ret = cnt ∧ ∃ f' es, Appended A inode cnt fileOff f f' s s' es := by
  have hpre := h.writePre hpos hb
  obtain ⟨hret, s₁, f', es, ts, evs, -, -, hsteps, hrec, -, hwr, htail, hs'⟩ :=
    nvmioWrite_run hpre hrun
  have hstart := writeVars_startPage s.mem inode cnt (show fileOff < 2 ^ 64 by omega)
  have hne : es ≠ [] := by
    rintro rfl
    have hlen := hwr.length
    rw [writeVars_pageNums s.mem inode hpos hb, pagesOf_nil, List.length_nil] at hlen
    omega
  obtain ⟨E, hE, hpage, hend⟩ := hsteps.newest h.holds hne
  have hindex : s'.index = Function.update s.index inode
      (indexEntries s'.mem (s.index inode) (es.map (·.off))) := congrArg State.index hs'
  have htrace : s'.trace = s₁.trace := by rw [hs']
  refine ⟨hret, f', es, ⟨ts, hwr.step⟩, htail, hwr.stored, fun E hE => ?_, hwr.fresh, hwr.chunks,
    ⟨E, hE, hpage, hend, writeVars_fileSize hpos hb hwr.chunks hE⟩, ?_, ?_, ?_, ?_⟩
  · obtain ⟨T, hT, horig, -, -, hle⟩ := hwr.place E hE
    exact ⟨T, hT, horig.imp And.left id, hle⟩
  · rw [htrace, hrec.entriesOf, hsteps.entriesOf]
  · intro i hi
    rw [hindex, Function.update_of_ne hi]
  · intro i q key hq hkey
    rw [hindex, Function.update_self]
    exact (hwr.index_apply (writeVars_valid s.mem inode hpos hb) key).1 i q hq
      (hkey.trans (by rw [hstart]; rfl))
  · intro key hkey
    rw [hindex, Function.update_self]
    refine (hwr.index_apply (writeVars_valid s.mem inode hpos hb) key).2 fun i hi => ?_
    rw [← hwr.length] at hi
    exact fun hc => hkey i hi (hc.trans (by rw [hstart]; rfl))

/-! ## Writes of no bytes -/

/-- A round of a write of no bytes copies whole pages and counts none of them. -/
theorem writeChunk_zero {v v' : WriteVars} (hf : f.Holds A s.mem) (htail : v.logTail = f.tail)
    (hzero : v.totalSize = 0) (hpos : 1 ≤ v.pageNums) (ho : v.offset < 4096)
    (hstart : v.startPage < 2 ^ 64) (hsize : v.fileSize < 2 ^ 64)
    (h : writeChunk A inode buf v s = .ok (v', s')) :
    ∃ f' e p l s₂ u, Obtained A f f' s s₂ p l e ∧ l.length = v.allocNum ∧ v' = v.next u f'.tail ∧
      s'.index = s.index ∧ LogStep A ∅ f f' [f.tail] s.mem s'.mem ∧ nextSlot s'.mem f.tail = e ∧
      LogEntry.Stored ⟨e, l, v'.fileSize, v.startPage, v.startPage, 0, 0⟩ s'.mem ∧
      entriesOf s'.trace = entriesOf s.trace ++ [e] := by
  have hn := v.allocNum_eq
  have hw := chunkSize_eq v v.allocNum
  rw [writeChunk] at h
  obtain ⟨⟨node, s₁⟩, halloc, h⟩ := bind_eq_ok.1 h
  obtain ⟨⟨e, tail', s₂⟩, hentry, h⟩ := bind_eq_ok.1 h
  simp only [htail] at hentry
  have htrace : entriesOf s₂.trace = entriesOf s.trace ++ [e] := by
    obtain ⟨new, hnew, hnone⟩ := getLogEntry_trace hentry
    rw [hnew, allocFreePages_trace halloc, entriesOf_append, ← List.singleton_append,
      entriesOf_append [_], ← List.singleton_append (l := new), entriesOf_append, hnone]
    simp [entriesOf, Event.entry?]
  obtain ⟨f', p, l, rfl, rfl, hlen, hob⟩ := obtained_of_allocFreePages hf (by omega) halloc hentry
  have hp : IsPage p := hob.chain.page p (hob.chain.head_mem (by omega))
  have hparts : chunkParts v v.allocNum (chunkSize v v.allocNum) =
      (0, (v.allocNum : Int) - 1, 0) := by
    rw [chunkParts_single (by omega), hzero]
  simp only [hp.getNvmNode2pageAddr_eq, hparts, Except.ok.injEq, Prod.mk.injEq] at h
  obtain ⟨rfl, rfl⟩ := h
  -- only the pages in front of the last one are copied, each as a whole
  have hTb := hob.step.holds.isPage.bounds
  have htl := hob.step.holds.tail_le
  have he := hob.tail
  have copied : Copied buf e 0 (4096 * l.length) v.userBuf l s₂.mem (0 + (v.allocNum - 1))
      ((writePage buf e 0 pageSize pageSize)^[v.allocNum - 1] ⟨s₂.mem, p, v.userBuf⟩) :=
    (Copied.start hob.chain (by omega)).writeMiddle hob.chain (by omega) (by omega) (by omega)
      (fun _ => rfl) (by omega) (by omega)
  have hpages : writePages buf e v.offset (0, (v.allocNum : Int) - 1, 0) ⟨s₂.mem, p, v.userBuf⟩ =
      (writePage buf e 0 pageSize pageSize)^[v.allocNum - 1] ⟨s₂.mem, p, v.userBuf⟩ := by
    rw [writePages, show ((v.allocNum : Int) - 1).toNat = v.allocNum - 1 by omega]
    simp
  rw [hpages]
  generalize (writePage buf e 0 pageSize pageSize)^[v.allocNum - 1] ⟨s₂.mem, p, v.userBuf⟩ = c
    at copied
  have hnone : chunkSize v v.allocNum = 0 := by omega
  have hsize' := v.fileSize_next_lt hsize c.userBuf f'.tail
  obtain ⟨step, hslot, -, hstored⟩ := hob.initEntry hf (by omega)
    (by omega) copied.frame hsize' hstart
    hstart rfl
  have hend : addU64 v.startPage (chunkSize v v.allocNum) = v.startPage := by
    rw [hnone, addU64_of_lt (by omega), Nat.add_zero]
  have hfirst (k : Nat) : fillFirstPage c.mem p k v.offset 0 = c.mem := if_neg (by simp)
  have hlast (k : Nat) : fillLastPage c.mem c.pageAddr k 0 = c.mem := if_neg (by simp)
  rw [hlen] at step hslot hstored
  simp only [hfirst, hlast, hend]
  exact ⟨f', e, p, l, s₂, c.userBuf, hob, hlen, rfl, hob.index, step, hslot, hstored,
    htrace⟩

/-- The rounds of a write of no bytes take as many distinct free pages as they count. -/
theorem writeLoop_zero_pages {fuel : Nat} {v v' : WriteVars} (hf : f.Holds A s.mem)
    (htail : v.logTail = f.tail) (hzero : v.totalSize = 0) (ho : v.offset < 4096)
    (hstart : v.startPage < 2 ^ 64) (hsize : v.fileSize < 2 ^ 64)
    (h : writeLoop A inode buf fuel v s = .ok (v', s')) :
    ∃ l : List Nat, l.Nodup ∧ (∀ q ∈ l, q ∈ f.free) ∧ l.length = v.pageNums := by
  induction fuel generalizing v s f with
  | zero => cases h
  | succ fuel ih =>
    by_cases hpos : v.pageNums > 0
    · rw [writeLoop, if_pos hpos] at h
      obtain ⟨⟨v₁, s₁⟩, hchunk, h⟩ := bind_eq_ok.1 h
      obtain ⟨f', e, p, l, s₂, u, hob, hlen, rfl, -, step, -, hstored, -⟩ :=
        writeChunk_zero hf htail hzero hpos ho hstart hsize hchunk
      have hsize₁ : (v.next u f'.tail).fileSize < 2 ^ 64 := by
        have : FileLogEntry.fileSize.get s₁.mem e = (v.next u f'.tail).fileSize :=
          hstored.words.fileSize
        exact this ▸ Field.get_lt _ _ _
      obtain ⟨l', hnodup, hfree, hlen'⟩ := ih step.holds rfl (show v.totalSize - _ = 0 by omega)
        (show 0 < 4096 by decide) (addU64_lt _ _) hsize₁ h
      refine ⟨l ++ l', hob.chain.nodup.append hnodup fun q hq hq' => (hob.fresh q hq).2.1
        (hfree q hq'), fun q hq => ?_, ?_⟩
      · rcases List.mem_append.1 hq with hq | hq
        · exact (hob.fresh q hq).1
        · exact step.sub (hfree q hq)
      · have hn := v.allocNum_eq
        have hnext : (v.next u f'.tail).pageNums = v.pageNums - v.allocNum := rfl
        rw [List.length_append]
        omega
    · exact ⟨[], List.nodup_nil, by simp, by rw [List.length_nil]; omega⟩

/-- A write of no bytes at a page boundary does not return: it counts 2^52 pages. -/
theorem offset_ne_of_nvmioWrite_zero (hf : f.Holds A s.mem)
    (htail : AtfsInode.logTail.get s.mem inode = f.tail) (hb : fileOff < 2 ^ 64)
    (hrun : nvmioWrite A R s inode buf 0 fileOff = .ok (ret, s')) : fileOff % 4096 ≠ 0 := by
  intro hal
  have ho := writeVars_offset s.mem inode 0 fileOff
  have hs := writeVars_startPage s.mem inode 0 hb
  rw [nvmioWrite] at hrun
  obtain ⟨⟨v', s₁⟩, hloop, -⟩ := bind_eq_ok.1 hrun
  have hzero : (writeVars s.mem inode 0 fileOff).totalSize = 0 := rfl
  have hsize : (writeVars s.mem inode 0 fileOff).fileSize < 2 ^ 64 := AtfsInode.iSize.get_lt _ _
  obtain ⟨l, hnodup, hfree, hlen⟩ := writeLoop_zero_pages hf htail hzero (by omega) (by omega)
    hsize hloop
  have hle := IsPage.length_le (fun q hq => A.rep_page hf.rep q (hfree q hq)) hnodup
  have hnums : (writeVars s.mem inode 0 fileOff).pageNums = 2 ^ 52 := by
    rw [writeVars]
    simp only [and_pageOffsetMask, hal, Nat.shiftRight_eq_div_pow]
    decide
  rw [hlen, hnums, nvmFreeNumPages_eq] at hle
  omega

/-- Moving the tail of the inode behind the log completes a step. -/
theorem Ready.setTail {f' : Frontier} {ts : List Nat} {m : Memory} (h : Ready A f s inode)
    (hstep : LogStep A ∅ f f' ts s.mem m) : AtfsInode.logTail.get m inode = f.tail ∧
      AtfsInode.logTail.get (updateInodeTail m inode f'.tail) inode = f'.tail ∧
      LogStep A (AtfsInode.logTail.bytes inode) f f' ts s.mem (updateInodeTail m inode f'.tail) ∧
      ∀ q, IsPage q → (q = f.page ∨ q ∈ f.free) →
        Set.EqOn (updateInodeTail m inode f'.tail) m (pageBytes q) := by
  obtain ⟨p, hp, hpF, hpT, hle, hle'⟩ := h.inodePage
  rw [show sizeofAtfsInode = 216 from rfl] at hle'
  have hbytes : ∀ a ∈ AtfsInode.logTail.bytes inode, a ∈ pageBytes p ∧ a ∉ linkBytes p := by
    intro a ha
    simp only [Field.bytes, AtfsInode.logTail_off, AtfsInode.logTail_size, Set.mem_Ico] at ha
    rw [mem_pageBytes, mem_linkBytes]
    omega
  have hchange := AtfsInode.logTail.changesOnly_set m inode f'.tail
  refine ⟨?_, Field.get_set_self_of_lt _ _ ?_, ?_, ?_⟩
  · rw [← h.tail]
    exact Field.get_congr fun a ha =>
      hstep.keeps h.holds hp hpF hpT (hbytes a ha).1 (Set.notMem_empty _)
  · have := hstep.holds.isPage.bounds
    have := hstep.holds.tail_le
    show f'.tail < 2 ^ 64
    omega
  · exact (hstep.mono (Set.empty_subset _)).write_inside hchange (fun a ha => .inr ha) fun a ha =>
      ⟨p, hp, fun hc => hpF (hstep.sub hc), hbytes a ha⟩
  · intro q hq horig a ha
    refine hchange a fun hc => ?_
    have hne : q ≠ p := by
      rintro rfl
      exact horig.elim hpT hpF
    have := (hbytes a hc).1
    have := hq.apart hp hne
    simp only [mem_pageBytes] at *
    omega

/-- The only round of a write of no bytes that starts inside a page. -/
theorem nvmioWrite_zero_round (hf : f.Holds A s.mem)
    (htail : AtfsInode.logTail.get s.mem inode = f.tail) (hb : fileOff < 2 ^ 64)
    (hrun : nvmioWrite A R s inode buf 0 fileOff = .ok (ret, s')) :
    ∃ v' s₁, writeChunk A inode buf (writeVars s.mem inode 0 fileOff) s = .ok (v', s₁) ∧
      (writeVars s.mem inode 0 fileOff).pageNums = 1 ∧ ret = 0 ∧
      s' = R.updateRadixtree { s₁ with mem := updateInodeTail s₁.mem inode v'.logTail } inode
        (AtfsInode.logTail.get s₁.mem inode) := by
  have hodd := offset_ne_of_nvmioWrite_zero hf htail hb hrun
  have hnums : (writeVars s.mem inode 0 fileOff).pageNums = 1 := by
    rw [writeVars]
    simp only [and_pageOffsetMask]
    rw [addU64_of_lt (a := 0) (by omega), subU64_of_le (by omega) (by omega),
      Nat.shiftRight_eq_div_pow, show 2 ^ pageShift = 4096 from rfl, addU64_of_lt (by omega)]
    omega
  rw [nvmioWrite] at hrun
  obtain ⟨⟨v', s₁⟩, hloop, hrun⟩ := bind_eq_ok.1 hrun
  simp only [hnums] at hloop
  rw [writeLoop, if_pos (by omega)] at hloop
  obtain ⟨⟨v₁, s₂⟩, hchunk, hloop⟩ := bind_eq_ok.1 hloop
  have hdone : v₁.pageNums = 0 := by
    rw [writeChunk_pageNums hchunk, WriteVars.allocNum_eq, hnums]
    rfl
  simp only [writeLoop, hdone, gt_iff_lt, lt_irrefl, if_false, Except.ok.injEq,
    Prod.mk.injEq] at hloop
  obtain ⟨rfl, rfl⟩ := hloop
  simp only [Except.ok.injEq, Prod.mk.injEq] at hrun
  exact ⟨v₁, s₂, hchunk, hnums, hrun.1.symm, hrun.2.symm⟩

theorem Ready.appended_zero (h : Ready A f s inode) (hb : fileOff < 2 ^ 64)
    (hrun : nvmioWrite A R s inode buf 0 fileOff = .ok (ret, s')) :
    ret = 0 ∧ ∃ f' es, Appended A inode 0 fileOff f f' s s' es := by
  obtain ⟨v', s₁, hchunk, hnums, hret, rfl⟩ := nvmioWrite_zero_round h.holds h.tail hb hrun
  refine ⟨hret, ?_⟩
  have ho := writeVars_offset s.mem inode 0 fileOff
  have hs := writeVars_startPage s.mem inode 0 hb
  have hold : (writeVars s.mem inode 0 fileOff).fileSize = AtfsInode.iSize.get s.mem inode := rfl
  have hoff : (writeVars s.mem inode 0 fileOff).fileOff = fileOff := rfl
  have htail : (writeVars s.mem inode 0 fileOff).logTail = f.tail := h.tail
  have hzero : (writeVars s.mem inode 0 fileOff).totalSize = 0 := rfl
  have hlt : (writeVars s.mem inode 0 fileOff).fileSize < 2 ^ 64 := AtfsInode.iSize.get_lt _ _
  generalize hv : writeVars s.mem inode 0 fileOff = v at *
  obtain ⟨f', e, p, l, s₂, u, hob, hlen, rfl, hindex, step, hslot, hstored, htrace⟩ :=
    writeChunk_zero h.holds htail hzero (by omega) (by omega) (by omega) hlt hchunk
  have hnum := v.allocNum_eq
  have hnone : chunkSize v v.allocNum = 0 := by
    rw [chunkSize_eq]
    omega
  have hend : addU64 v.startPage (chunkSize v v.allocNum) = v.startPage := by
    rw [hnone, addU64_of_lt (by omega), Nat.add_zero]
  have hsize : (v.next u f'.tail).fileSize = max (AtfsInode.iSize.get s.mem inode)
      (fileOff + 0) := by
    rw [WriteVars.next]
    simp only [hnone, hoff, hold, addU64_of_lt (show fileOff + 0 < 2 ^ 64 by omega)]
    split_ifs <;> omega
  obtain ⟨htail₁, htail', hstep', hkeep⟩ := h.setTail step
  rw [htail₁, show (v.next u f'.tail).logTail = f'.tail from rfl]
  generalize updateInodeTail s₁.mem inode f'.tail = m at *
  -- the entry is still there when the tail has been moved
  have hpage : f'.page ≤ e ∧ (f'.page = f.page ∨ f'.page ∈ f.free) := by
    have := h.holds.le_tail
    rcases hob.place with ⟨hp, he⟩ | ⟨hp, he⟩
    · exact ⟨by omega, .inl hp⟩
    · exact ⟨he.ge, .inr hp⟩
  have hstored' : LogEntry.Stored
      ⟨e, l, (v.next u f'.tail).fileSize, v.startPage, v.startPage, 0, 0⟩ m := by
    have := hob.tail
    have := hob.step.holds.tail_le
    refine hstored.congr ((hkeep _ hob.step.holds.isPage hpage.2).mono fun a ha => ?_) fun q hq =>
      (hkeep q (hob.chain.page q hq) (.inr (hob.fresh q hq).1)).mono fun a ha => ?_
    · rw [Set.mem_Ico] at ha
      rw [mem_pageBytes]
      simp only at ha
      omega
    · rw [Set.mem_Ico] at ha
      rw [mem_pageBytes]
      omega
  have hslot' : nextSlot m f.tail = e := by
    rw [← hslot]
    refine nextSlot_congr h.holds.isPage ⟨h.holds.le_tail, h.holds.tail_le⟩ fun _ =>
      h.holds.isPage.pageLink_congr ((hkeep _ h.holds.isPage (.inl rfl)).mono fun a ha => ?_)
    rw [Set.mem_Ico] at ha
    rw [mem_pageBytes]
    omega
  have hpath := hstep'.path
  have hnot := hstep'.tail_not_mem
  rw [← htail'] at hpath hnot
  rw [R.spec { s₁ with mem := m } inode f.tail [f.tail] hpath hnot]
  simp only [hindex, List.map_cons, List.map_nil, hslot']
  have happly := indexEntry_apply hstored' (by simp only; omega) (s.index inode)
  refine ⟨f', [⟨e, l, (v.next u f'.tail).fileSize, v.startPage, v.startPage, 0, 0⟩],
    ⟨_, hstep'⟩, htail', by simpa using hstored', ?_, by simpa [pagesOf] using hob.fresh, ?_,
    ⟨_, rfl, hpage.1, hob.tail, hsize⟩, htrace, fun i hi => Function.update_of_ne hi _ _, ?_, ?_⟩
  · intro E hE
    obtain rfl := List.mem_singleton.1 hE
    have := hob.tail
    have := hob.step.holds.tail_le
    exact ⟨f'.page, hob.step.holds.isPage, hpage.2, hpage.1, by simp only; omega⟩
  · rw [hv]
    exact .chunk u f'.tail (by omega) hlen rfl hend.symm rfl ⟨rfl, rfl⟩ (.done (by
      rw [WriteVars.next]
      simp only
      omega))
  · intro i q key hq hkey
    simp only [Function.update_self]
    rw [pagesOf_cons, pagesOf_nil, List.append_nil] at hq
    exact (happly key).1 i q hq (hkey.trans (by rw [hs]; rfl))
  · intro key hkey
    simp only [Function.update_self]
    rw [pagesOf_cons, pagesOf_nil, List.append_nil] at hkey
    exact (happly key).2 fun i hi hc => hkey i hi (hc.trans (by rw [hs]; rfl))

/-- Whatever it is asked to write, `nvmio_write` appends the entries of the request. -/
theorem Ready.appended (h : Ready A f s inode) (hb : fileOff + cnt < 2 ^ 64)
    (hrun : nvmioWrite A R s inode buf cnt fileOff = .ok (ret, s')) :
    ret = cnt ∧ ∃ f' es, Appended A inode cnt fileOff f f' s s' es := by
  rcases Nat.eq_zero_or_pos cnt with rfl | hpos
  · exact h.appended_zero hb hrun
  · exact h.appended_pos hpos hb hrun

end Write

end Atfs
