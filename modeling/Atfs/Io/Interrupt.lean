import Atfs.Allocator.Stores
import Atfs.Io.Supply

/-!
# Interrupting a write

`nvmio_write` store by store, up to the store that moves the tail of the inode. Until
then nothing that the file system refers to has changed, wherever the write is
interrupted: it only fills fresh pages and slots behind the tail.
-/

namespace Atfs

open ByteMemory LinkedChain

/-! ## Store by store -/

section Stores

variable {A : PageAllocator}

/-- The memories `get_log_entry` leaves after each of its stores. -/
def getLogEntryStores (P : AllocStores A) (s : State) (logTail : Nat) : List Memory :=
  if isLastEntry logTail then
    let lastPage := getNvmPageNodeAddr (logPageOff logTail)
    P.stores s.mem s.currentCpu writeLogPerAlloc ++
      match A.allocFreePages s writeLogPerAlloc with
      | .error _ => []
      | .ok (pages, s) =>
        let m₁ := ListNode.nextOffset.set s.mem lastPage (ListNode.offset.get s.mem pages)
        let m₂ := ListNode.invalidCnt.set m₁ pages 0
        let m₃ := ListNode.objCnt.set m₂ pages 1
        let m₄ := ListNode.invalidPages.set m₃ pages 0
        [m₁, m₂, m₃, m₄, ListNode.pagesCnt.set m₄ pages 0]
  else
    let pages := entry2logPage (logTail + sizeofFileLogEntry)
    [ListNode.objCnt.set s.mem pages (ListNode.objCnt.get s.mem pages + 1)]

def initLogEntryStores (m : Memory)
    (entry pages fileSize allocNum startWriteOff endWriteOff : Nat) :
    List Memory :=
  let pageNode := entry2logPage entry
  let m₁ := ListNode.pagesCnt.set m pageNode (ListNode.pagesCnt.get m pageNode + allocNum)
  let m₂ := fill m₁ entry sizeofFileLogEntry 0
  let m₃ := FileLogEntry.data.set m₂ entry pages
  let m₄ := FileLogEntry.fileSize.set m₃ entry fileSize
  let m₅ := FileLogEntry.startWriteOff.set m₄ entry startWriteOff
  let m₆ := FileLogEntry.endWriteOff.set m₅ entry endWriteOff
  [m₁, m₂, m₃, m₄, m₅, m₆, FileLogEntry.numPages.set m₆ entry allocNum]

/-- The stores that copy the user's bytes, page after page. -/
def writePagesStores (buf : Memory) (entryOff : Nat) : List (Nat × Nat × Nat) → Cursor → List Memory
  | [], _ => []
  | (offset, size, step) :: steps, c =>
    let next := writePage buf entryOff offset size step c
    ListNode.logEntry.set c.mem (getNvmPage2nodeAddr c.pageAddr) entryOff :: next.mem ::
      writePagesStores buf entryOff steps next

/-- The stores of a round once it has its pages and the slot of its entry. -/
def fillChunkStores (inode : Nat) (buf : Memory) (v : WriteVars) (pages entry : Nat) (s : State) :
    List Memory :=
  let allocNum := v.allocNum
  let node2page := getNvmNode2pageAddr pages
  let wrSize := chunkSize v allocNum
  let parts := chunkParts v allocNum wrSize
  let c := writePages buf entry v.offset parts ⟨s.mem, node2page, v.userBuf⟩
  let m₁ := fillFirstPage c.mem node2page (s.index inode v.startPage) v.offset parts.1
  let m₂ := fillLastPage m₁ c.pageAddr
    (s.index inode (addU64 v.startPage ((allocNum - 1) * pageSize))) parts.2.2
  let fileOff := addU64 v.fileOff wrSize
  let fileSize := if fileOff > v.fileSize then fileOff else v.fileSize
  writePagesStores buf entry (partSteps v.offset parts) ⟨s.mem, node2page, v.userBuf⟩ ++
    m₁ :: m₂ :: initLogEntryStores m₂ entry (ListNode.offset.get m₂ pages) fileSize allocNum
      v.startPage (addU64 v.startPage wrSize)

/-- The states a round of the loop of `nvmio_write` passes through. -/
def writeChunkStores (P : AllocStores A) (inode : Nat) (buf : Memory) (v : WriteVars) (s : State) :
    List State :=
  (P.stores s.mem s.currentCpu v.allocNum).map (fun m => { s with mem := m }) ++
  match A.allocFreePages s v.allocNum with
  | .error _ => []
  | .ok (pages, s) =>
    (getLogEntryStores P s v.logTail).map (fun m => { s with mem := m }) ++
    match getLogEntry A s v.logTail with
    | .error _ => []
    | .ok (entry, _, s) =>
      (fillChunkStores inode buf v pages entry s).map fun m => { s with mem := m }

def writeLoopStores (P : AllocStores A) (inode : Nat) (buf : Memory) :
    Nat → WriteVars → State → List State
  | 0, _, _ => []
  | fuel + 1, v, s =>
    if v.pageNums > 0 then
      writeChunkStores P inode buf v s ++
        match writeChunk A inode buf v s with
        | .error _ => []
        | .ok (v, s) => writeLoopStores P inode buf fuel v s
    else []

/-- The states `nvmio_write` passes through before `update_inode_tail`. -/
def nvmioWriteStores (P : AllocStores A) (s : State) (inode : Nat) (buf : Memory)
    (cnt fileOff : Nat) : List State :=
  let v := writeVars s.mem inode cnt fileOff
  s :: writeLoopStores P inode buf (v.pageNums + 1) v s

/-- What an interrupted run can leave: every byte as some state it has passed through has it.
A copy cut off in the middle is among that, and stores that reach the NVM out of order. -/
structure Interrupted (states : List State) (x : State) : Prop where
  mem : ∀ a, ∃ y ∈ states, x.mem a = y.mem a
  index : ∃ y ∈ states, x.index = y.index

end Stores

section Last

variable {A : PageAllocator} {R : RadixTree} {P : AllocStores A} {s s' : State} {v v' : WriteVars}
  {buf : Memory} {inode cnt fileOff fuel ret : Nat}

theorem initLogEntryStores_last (m : Memory)
    (entry pages fileSize allocNum startWriteOff endWriteOff : Nat) :
    (initLogEntryStores m entry pages fileSize allocNum startWriteOff endWriteOff).getLast? =
      some (initLogEntry m entry pages fileSize allocNum startWriteOff endWriteOff) := rfl

/-- A round that returns has its pages and its slot, and ends with the last of its stores. -/
theorem writeChunk_fill (h : writeChunk A inode buf v s = .ok (v', s')) :
    ∃ pages s₁ entry s₂, A.allocFreePages s v.allocNum = .ok (pages, s₁) ∧
      getLogEntry A s₁ v.logTail = .ok (entry, v'.logTail, s₂) ∧ v'.offset = 0 ∧
      (fillChunkStores inode buf v pages entry s₂).getLast? = some s'.mem ∧
      s' = { s₂ with mem := s'.mem } := by
  rw [writeChunk] at h
  obtain ⟨⟨pages, s₁⟩, halloc, h⟩ := bind_eq_ok.1 h
  obtain ⟨⟨entry, tail', s₂⟩, hentry, h⟩ := bind_eq_ok.1 h
  simp only [Except.ok.injEq, Prod.mk.injEq] at h
  obtain ⟨rfl, rfl⟩ := h
  refine ⟨pages, s₁, entry, s₂, halloc, hentry, rfl, ?_, rfl⟩
  unfold fillChunkStores
  rw [List.getLast?_append, List.getLast?_cons_cons, List.getLast?_cons, initLogEntryStores_last]
  rfl

/-- The last state of a round is the one it returns with. -/
theorem writeChunkStores_last (h : writeChunk A inode buf v s = .ok (v', s')) :
    (writeChunkStores P inode buf v s).getLast? = some s' := by
  obtain ⟨pages, s₁, entry, s₂, halloc, hentry, -, hlast, hs'⟩ := writeChunk_fill h
  unfold writeChunkStores
  simp only [halloc, hentry]
  rw [List.getLast?_append, List.getLast?_append, List.getLast?_map, hlast]
  exact congrArg some hs'.symm

theorem writeLoopStores_last (h : writeLoop A inode buf fuel v s = .ok (v', s')) :
    (s :: writeLoopStores P inode buf fuel v s).getLast? = some s' := by
  induction fuel generalizing v s with
  | zero => cases h
  | succ fuel ih =>
    rw [writeLoop] at h
    rw [writeLoopStores]
    split_ifs at h ⊢ with hpos
    · obtain ⟨⟨v₁, s₁⟩, hchunk, h⟩ := bind_eq_ok.1 h
      have hrest := ih h
      have hlast := writeChunkStores_last (P := P) hchunk
      simp only [hchunk]
      rw [List.getLast?_cons] at hrest
      rw [List.getLast?_cons, List.getLast?_append, hlast]
      cases hcase : (writeLoopStores P inode buf fuel v₁ s₁).getLast? with
      | none =>
        rw [hcase] at hrest
        simpa using hrest
      | some y =>
        rw [hcase] at hrest
        simpa using hrest
    · obtain ⟨-, rfl⟩ : v = v' ∧ s = s' := by simpa using h
      rfl

/-- A write that returns has gone through its stores, then moved the tail and updated the
index. -/
theorem nvmioWrite_commit (P : AllocStores A)
    (h : nvmioWrite A R s inode buf cnt fileOff = .ok (ret, s')) :
    ∃ s₁ logTail, (nvmioWriteStores P s inode buf cnt fileOff).getLast? = some s₁ ∧
      s' = R.updateRadixtree { s₁ with mem := updateInodeTail s₁.mem inode logTail } inode
        (AtfsInode.logTail.get s₁.mem inode) := by
  rw [nvmioWrite] at h
  obtain ⟨⟨v, s₁⟩, hloop, h⟩ := bind_eq_ok.1 h
  simp only [Except.ok.injEq, Prod.mk.injEq] at h
  exact ⟨s₁, v.logTail, writeLoopStores_last hloop, h.2.symm⟩

end Last

/-! ## What the stores may write -/

/-- What a write may touch before it commits: what the allocator keeps to itself, pages that
were free, and the end of the log. -/
def uncommitted (f : Frontier) : Set Nat :=
  allocatorBytes f.free ∪ bytesOf f.free ∪ tailBytes f.page f.tail

theorem footprint_subset {f f' : Frontier} : footprint f f' ⊆ uncommitted f := by
  rintro a ((ha | ⟨q, hq, ha⟩) | ha)
  · exact .inl (.inl ha)
  · exact .inl (.inr ⟨q, hq.1, ha⟩)
  · exact .inr ha

section Frames

variable {A : PageAllocator} {P : AllocStores A} {f f' : Frontier} {ts : List Nat} {s s' : State}
  {m m' : Memory} {buf : Memory} {l : List Nat} {p e : Nat}

theorem LogStep.changesOnly (h : LogStep A ∅ f f' ts m m') : ChangesOnly (uncommitted f) m m' := by
  refine h.frame.mono ?_
  rw [Set.union_empty]
  exact footprint_subset

/-- A log that has advanced may touch no more than before. -/
theorem LogStep.uncommitted_subset {D : Set Nat} (h : LogStep A D f f' ts m m') :
    uncommitted f' ⊆ uncommitted f := by
  have hle := h.holds.le_tail
  rintro a ((ha | ⟨q, hq, ha⟩) | ha)
  · exact .inl (.inl (allocatorBytes_mono h.sub ha))
  · exact .inl (.inr ⟨q, h.sub hq, ha⟩)
  · rcases h.moved with ⟨hp, ht⟩ | hp
    · refine .inr ?_
      rw [hp] at ha
      simp only [mem_tailBytes] at *
      omega
    · refine .inl (.inr ⟨f'.page, hp, ?_⟩)
      simp only [mem_tailBytes, mem_pageBytes] at *
      omega

/-- The stores of `get_log_entry` in front of the last one. -/
theorem changesOnly_getLogEntryStores (hf : f.Holds A s.mem) :
    ∀ m ∈ getLogEntryStores P s f.tail, ChangesOnly (uncommitted f) s.mem m := by
  have hle := hf.le_tail
  have htl := hf.tail_le
  have hmem : f.tail ∈ pageBytes f.page := by rw [mem_pageBytes]; omega
  intro m hm
  unfold getLogEntryStores at hm
  split_ifs at hm with hlast
  · rcases List.mem_append.1 hm with hm | hm
    · exact (P.frame s.currentCpu hf.rep le_rfl m hm).mono fun a ha => .inl (.inl ha)
    · cases halloc : A.allocFreePages s writeLogPerAlloc with
      | error x => simp [halloc] at hm
      | ok r =>
        obtain ⟨node, s₁⟩ := r
        obtain ⟨p, l, F', rfl, hlen, hall⟩ := PageAllocator.allocFreePages_spec hf.rep le_rfl halloc
        have hp : p ∈ f.free := hall.fresh p (hall.chain.head_mem hlen.ge)
        have counter (g : Field 40) (m : Memory) (v : Nat) :
            ChangesOnly (uncommitted f) m (g.set m (p + 4096) v) :=
          (g.changesOnly_set m _ v).mono fun a ha => .inl (.inr ⟨p, hp, by
            have := g.fits
            rw [Field.bytes, Set.mem_Ico] at ha
            rw [mem_pageBytes]
            omega⟩)
        have link (m : Memory) (v : Nat) :
            ChangesOnly (uncommitted f) m (ListNode.nextOffset.set m (f.page + 4096) v) :=
          (ListNode.nextOffset.changesOnly_set m _ v).mono fun a ha => .inr (by
            simp only [Field.bytes, ListNode.nextOffset_off, ListNode.nextOffset_size,
              Set.mem_Ico] at ha
            rw [mem_tailBytes]
            omega)
        have h₀ : ChangesOnly (uncommitted f) s.mem s₁.mem :=
          hall.frame.mono fun a ha => .inl (.inl ha)
        simp only [halloc, hf.isPage.logPageOff_eq hmem, hf.isPage.getNvmPageNodeAddr_eq] at hm
        refine h₀.trans (ChangesOnly.of_isChain ?_ m hm)
        simp only [List.isChain_cons_cons, List.isChain_singleton, and_true]
        exact ⟨link _ _, counter _ _ _, counter _ _ _, counter _ _ _, counter _ _ _⟩
  · rw [hf.isPage.isLastEntry_iff hmem, not_lt] at hlast
    have hnode : entry2logPage (f.tail + sizeofFileLogEntry) = f.page + 4096 := by
      refine hf.isPage.entry2logPage_eq ?_
      rw [mem_pageBytes, show sizeofFileLogEntry = 48 from rfl]
      omega
    simp only [hnode, List.mem_singleton] at hm
    subst hm
    refine (ListNode.objCnt.changesOnly_set s.mem _ _).mono fun a ha => .inr ?_
    simp only [Field.bytes, ListNode.objCnt_off, ListNode.objCnt_size, Set.mem_Ico] at ha
    rw [mem_tailBytes]
    omega

theorem changesOnly_initLogEntryStores {T pages fileSize n start stop : Nat} (hT : IsPage T)
    (he : T ≤ e) (he' : e + 48 ≤ T + 4096) (m : Memory) :
    ∀ m' ∈ initLogEntryStores m e pages fileSize n start stop,
      ChangesOnly (entryBytes T e) m m' := by
  have hnode : entry2logPage e = T + 4096 := hT.entry2logPage_eq (by rw [mem_pageBytes]; omega)
  have field (f : Field 48) (m : Memory) (v : Nat) : ChangesOnly (entryBytes T e) m (f.set m e v) :=
    (f.changesOnly_set m e v).mono fun a ha => by
      have := f.fits
      rw [Field.bytes, Set.mem_Ico] at ha
      rw [mem_entryBytes]
      omega
  have h₁ : ChangesOnly (entryBytes T e) m (ListNode.pagesCnt.set m (T + 4096)
      (ListNode.pagesCnt.get m (T + 4096) + n)) :=
    (ListNode.pagesCnt.changesOnly_set m _ _).mono fun a ha => by
      simp only [Field.bytes, ListNode.pagesCnt_off, ListNode.pagesCnt_size, Set.mem_Ico] at ha
      rw [mem_entryBytes]
      omega
  have zero (m : Memory) : ChangesOnly (entryBytes T e) m (fill m e sizeofFileLogEntry 0) :=
    (changesOnly_fill m e _ 0).mono fun a ha => .inl ha
  refine ChangesOnly.of_isChain ?_
  simp only [initLogEntryStores, hnode, List.isChain_cons_cons, List.isChain_singleton, and_true]
  exact ⟨h₁, zero _, field _ _ _, field _ _ _, field _ _ _, field _ _ _, field _ _ _⟩

/-- The parts of a chunk lie in their pages, whatever its sizes are. -/
theorem partSteps_fit {v : WriteVars} (ho : v.offset < 4096) (n w : Nat) :
    (chunkParts v n w).2.2 < 4096 ∧
      ∀ step ∈ partSteps v.offset (chunkParts v n w), step.1 + step.2.1 ≤ 4096 := by
  have hparts : (chunkParts v n w).2.2 < 4096 ∧ v.offset + (chunkParts v n w).1 ≤ 4096 := by
    rcases Nat.lt_or_ge (4096 - v.offset) v.totalSize with h | h
    · rw [chunkParts_multi h]
      refine ⟨Nat.mod_lt _ (by decide), ?_⟩
      simp only
      split_ifs <;> omega
    · rw [chunkParts_single h]
      simp only
      omega
  generalize chunkParts v n w = parts at hparts
  refine ⟨hparts.1, fun step hstep => ?_⟩
  rw [partSteps, pageSize_eq] at hstep
  simp only [List.mem_append, List.mem_replicate] at hstep
  rcases hstep with h | ⟨-, rfl⟩ | h
  · split_ifs at h
    · obtain rfl := List.mem_singleton.1 h
      exact hparts.2
    · cases h
  · exact le_rfl
  · split_ifs at h
    · obtain rfl := List.mem_singleton.1 h
      simp only
      omega
    · cases h

/-- The cursor is on the chain and has only written to it. -/
structure Cursor.On (l : List Nat) (m : Memory) (c : Cursor) : Prop where
  page : c.pageAddr ∈ l
  frame : ChangesOnly (dataBytes l) m c.mem

/-- Copying to one page after the other stays on the chain. -/
theorem Cursor.On.writePages (buf : Memory) (e : Nat) {steps : List (Nat × Nat × Nat)} {c : Cursor}
    (h : c.On l m) (hl : PageChain m p l) (hfit : ∀ step ∈ steps, step.1 + step.2.1 ≤ 4096) :
    (∀ m' ∈ writePagesStores buf e steps c, ChangesOnly (dataBytes l) m m') ∧
      (steps.foldl (fun c step => writePage buf e step.1 step.2.1 step.2.2 c) c).On l m := by
  induction steps generalizing c with
  | nil => exact ⟨by simp [writePagesStores], h⟩
  | cons step steps ih =>
    obtain ⟨offset, size, move⟩ := step
    have hfit₁ : offset + size ≤ 4096 := hfit (offset, size, move) (by simp)
    have hq := hl.page _ h.page
    have hset : ChangesOnly (dataBytes l) c.mem
        (ListNode.logEntry.set c.mem (getNvmPage2nodeAddr c.pageAddr) e) := by
      refine (ListNode.logEntry.changesOnly_set c.mem _ e).mono fun a ha => ?_
      rw [hq.getNvmPage2nodeAddr_eq] at ha
      exact ⟨c.pageAddr, h.page, .inr ha⟩
    have hcopy : ChangesOnly (dataBytes l) m (writePage buf e offset size move c).mem := by
      refine (h.frame.trans hset).trans ((changesOnly_copy _ buf _ _ _).mono fun a ha => ?_)
      refine bodyBytes_subset_dataBytes h.page ?_
      rw [Set.mem_Ico] at ha
      rw [mem_bodyBytes]
      omega
    -- the node of the page still has the link it had in the beginning
    have hlink : ListNode.nextOffset.get (writePage buf e offset size move c).mem
        (getNvmPage2nodeAddr c.pageAddr) = pageLink m c.pageAddr := by
      rw [hq.pageLink_eq, hq.getNvmPage2nodeAddr_eq]
      refine Field.get_congr fun a ha => hcopy a ?_
      simp only [Field.bytes, ListNode.nextOffset_off, ListNode.nextOffset_size, Set.mem_Ico] at ha
      exact dataBytes_apart hl.page hq (by omega) (by omega)
    have hon : (writePage buf e offset size move c).On l m := by
      refine ⟨?_, hcopy⟩
      rw [writePage] at hlink ⊢
      simp only at hlink ⊢
      rw [hlink]
      split_ifs with hend
      · exact (hl.chain.link_mem h.page).resolve_right hend
      · exact h.page
    obtain ⟨hstores, hrest⟩ := ih hon fun step hstep => hfit step (List.mem_cons_of_mem _ hstep)
    refine ⟨fun m' hm' => ?_, hrest⟩
    rw [writePagesStores, List.mem_cons, List.mem_cons] at hm'
    rcases hm' with rfl | rfl | hm'
    · exact h.frame.trans hset
    · exact hcopy
    · exact hstores m' hm'

/-- Filling the new pages and the slot extends the step that obtained them. -/
theorem Obtained.fillStores {v : WriteVars} (h : Obtained A f f' s s' p l e) (hf : f.Holds A s.mem)
    (hpos : 1 ≤ l.length) (ho : v.offset < 4096) (inode : Nat) (buf : Memory) :
    ∀ m ∈ fillChunkStores inode buf v (p + 4096) e s', LogStep A ∅ f f' [f.tail] s.mem m := by
  have hpl := h.chain.head_mem hpos
  have hp : IsPage p := h.chain.page p hpl
  obtain ⟨hlast, hfit⟩ := partSteps_fit ho v.allocNum (chunkSize v v.allocNum)
  have start : Cursor.On l s'.mem ⟨s'.mem, p, v.userBuf⟩ := ⟨hpl, ChangesOnly.refl _ _⟩
  obtain ⟨hcopies, hon⟩ := start.writePages buf e h.chain hfit
  rw [← writePages_eq_foldl] at hon
  intro m hm
  simp only [fillChunkStores, hp.getNvmNode2pageAddr_eq, List.mem_append, List.mem_cons] at hm
  generalize writePages buf e v.offset (chunkParts v v.allocNum (chunkSize v v.allocNum))
    ⟨s'.mem, p, v.userBuf⟩ = c at hon hm
  generalize chunkParts v v.allocNum (chunkSize v v.allocNum) = parts at hlast hcopies hm
  have h₁ := hon.frame.trans ((changesOnly_fillFirstPage ho c.mem p (s'.index inode v.startPage)
    parts.1).mono (bodyBytes_subset_dataBytes hpl))
  generalize fillFirstPage c.mem p (s'.index inode v.startPage) v.offset parts.1 = m₁ at h₁ hm
  have h₂ := h₁.trans ((changesOnly_fillLastPage hlast m₁ c.pageAddr
    (s'.index inode (addU64 v.startPage ((v.allocNum - 1) * pageSize)))).mono
    (bodyBytes_subset_dataBytes hon.page))
  generalize fillLastPage m₁ c.pageAddr
    (s'.index inode (addU64 v.startPage ((v.allocNum - 1) * pageSize))) parts.2.2 = m₂ at h₂ hm
  rcases hm with hm | rfl | rfl | hm
  · exact h.writeData (hcopies m hm)
  · exact h.writeData h₁
  · exact h.writeData h₂
  · have htail := h.tail
    have htl := h.step.holds.tail_le
    have hle : f'.page ≤ e := by
      have := hf.le_tail
      rcases h.place with ⟨hp, rfl⟩ | ⟨-, rfl⟩
      · omega
      · exact le_rfl
    exact (h.writeData h₂).writeEntry h.place h.tail hf
      (changesOnly_initLogEntryStores h.step.holds.isPage hle (by omega) m₂ m hm)

/-- All that a round passes through is uncommitted. -/
theorem writeChunkStores_uncommitted {v : WriteVars} {inode : Nat} (hf : f.Holds A s.mem)
    (htail : v.logTail = f.tail) (ho : v.offset < 4096) (hpos : v.pageNums > 0) :
    ∀ y ∈ writeChunkStores P inode buf v s,
      ChangesOnly (uncommitted f) s.mem y.mem ∧ y.index = s.index := by
  have hn : 1 ≤ v.allocNum := by
    rw [v.allocNum_eq]
    omega
  intro y hy
  rw [writeChunkStores] at hy
  rcases List.mem_append.1 hy with hy | hy
  · obtain ⟨m, hm, rfl⟩ := List.mem_map.1 hy
    exact ⟨(P.frame s.currentCpu hf.rep hn m hm).mono fun a ha => .inl (.inl ha), rfl⟩
  cases halloc : A.allocFreePages s v.allocNum with
  | error x => simp [halloc] at hy
  | ok r =>
    obtain ⟨node, s₁⟩ := r
    obtain ⟨p₁, l₁, F₁, -, -, hall⟩ := PageAllocator.allocFreePages_spec hf.rep hn halloc
    have hstep₁ := hall.logStep hf ∅
    simp only [halloc] at hy
    rcases List.mem_append.1 hy with hy | hy
    · obtain ⟨m, hm, rfl⟩ := List.mem_map.1 hy
      rw [htail] at hm
      exact ⟨hstep₁.changesOnly.trans ((changesOnly_getLogEntryStores hstep₁.holds m hm).mono
        hstep₁.uncommitted_subset), hall.index⟩
    cases hentry : getLogEntry A s₁ v.logTail with
    | error x => simp [hentry] at hy
    | ok r =>
      obtain ⟨e, tail', s₂⟩ := r
      simp only [hentry] at hy
      obtain ⟨m, hm, rfl⟩ := List.mem_map.1 hy
      rw [htail] at hentry
      obtain ⟨f', p, l, rfl, rfl, hlen, hob⟩ := obtained_of_allocFreePages hf hn halloc hentry
      exact ⟨(hob.fillStores hf (by omega) ho inode buf m hm).changesOnly, hob.index⟩

/-- A round advances the log. -/
theorem writeChunk_step {v v' : WriteVars} {inode : Nat} (hf : f.Holds A s.mem)
    (htail : v.logTail = f.tail) (ho : v.offset < 4096) (hpos : v.pageNums > 0)
    (h : writeChunk A inode buf v s = .ok (v', s')) :
    ∃ f', LogStep A ∅ f f' [f.tail] s.mem s'.mem ∧ v'.logTail = f'.tail ∧ v'.offset = 0 ∧
      s'.index = s.index := by
  have hn : 1 ≤ v.allocNum := by
    rw [v.allocNum_eq]
    omega
  obtain ⟨node, s₁, e, s₂, halloc, hentry, hoff, hlast, hs'⟩ := writeChunk_fill h
  rw [htail] at hentry
  obtain ⟨f', p, l, rfl, htail', hlen, hob⟩ := obtained_of_allocFreePages hf hn halloc hentry
  refine ⟨f', hob.fillStores hf (by omega) ho inode buf s'.mem (List.mem_of_getLast? hlast), htail',
    hoff, ?_⟩
  rw [hs']
  exact hob.index

/-- So is all that the rounds pass through. -/
theorem writeLoopStores_uncommitted {v : WriteVars} {inode fuel : Nat} (hf : f.Holds A s.mem)
    (htail : v.logTail = f.tail) (ho : v.offset < 4096) :
    ∀ y ∈ writeLoopStores P inode buf fuel v s,
      ChangesOnly (uncommitted f) s.mem y.mem ∧ y.index = s.index := by
  induction fuel generalizing f v s with
  | zero => simp [writeLoopStores]
  | succ fuel ih =>
    intro y hy
    rw [writeLoopStores] at hy
    split_ifs at hy with hpos
    · rcases List.mem_append.1 hy with hy | hy
      · exact writeChunkStores_uncommitted hf htail ho hpos y hy
      · cases hchunk : writeChunk A inode buf v s with
        | error x => simp [hchunk] at hy
        | ok r =>
          obtain ⟨v₁, s₁⟩ := r
          simp only [hchunk] at hy
          obtain ⟨f₁, hstep, htail₁, ho₁, hindex⟩ := writeChunk_step hf htail ho hpos hchunk
          obtain ⟨hrest, hrest'⟩ := ih hstep.holds htail₁ (by omega) y hy
          exact ⟨hstep.changesOnly.trans (hrest.mono hstep.uncommitted_subset), hrest'.trans hindex⟩
    · cases hy

end Frames

/-! ## The interrupted write -/

/-- The log of the inode ends at `f`, and the inode lies in another page in use. -/
structure WriteStart (A : PageAllocator) (f : Frontier) (s : State) (inode : Nat) : Prop where
  holds : f.Holds A s.mem
  tail : AtfsInode.logTail.get s.mem inode = f.tail
  inodePage : ∃ p, InodePage f inode p

/-- The log of an inode runs over the pages `pages` and then `last`, all of them in use. -/
structure InodeLog (m : Memory) (f : Frontier) (inode : Nat) (pages : List Nat) (last : Nat) :
    Prop where
  chain : Segment (pageLink m) (AtfsInode.logHead.get m inode) pages last
  inUse : ∀ T ∈ last :: pages, IsPage T ∧ T ∉ f.free
  last_notMem : last ∉ pages
  le_tail : last ≤ AtfsInode.logTail.get m inode
  tail_le : AtfsInode.logTail.get m inode ≤ last + 4096

/-- The entry at `e` lies on that log, before its tail. -/
def EntryBefore (m : Memory) (inode : Nat) (pages : List Nat) (last e : Nat) : Prop :=
  (∃ T ∈ pages, T ≤ e ∧ e + sizeofFileLogEntry ≤ T + pageSize) ∨
    last ≤ e ∧ e + sizeofFileLogEntry ≤ AtfsInode.logTail.get m inode

/-- What the file system refers to in state `s` is the same in state `x`: the pages in use, the
entries in front of the tails, the inode and the index. Only fresh pages and the end of the
log of the inode are written. -/
structure Unharmed (f : Frontier) (inode : Nat) (s x : State) : Prop where
  data : ∀ q, IsPage q → q ∉ f.free → q ≠ f.page → Set.EqOn x.mem s.mem (bodyBytes q)
  entries : ∀ inode' pages last e, InodeLog s.mem f inode' pages last →
    (inode' ≠ inode → f.page ∉ last :: pages) → EntryBefore s.mem inode' pages last e →
    Set.EqOn x.mem s.mem (Set.Ico e (e + sizeofFileLogEntry))
  logTail : AtfsInode.logTail.get x.mem inode = AtfsInode.logTail.get s.mem inode
  iSize : AtfsInode.iSize.get x.mem inode = AtfsInode.iSize.get s.mem inode
  fileOff : AtfsInode.fileOff.get x.mem inode = AtfsInode.fileOff.get s.mem inode
  index : x.index = s.index
  written : ChangesOnly (uncommitted f) s.mem x.mem

section Interrupted

variable {A : PageAllocator} {f : Frontier} {s x : State} {buf : Memory} {inode cnt fileOff : Nat}

/-- A page in use other than the last of the log is out of reach. -/
theorem Frontier.Holds.not_mem_uncommitted (hf : f.Holds A s.mem) {q a : Nat} (hq : IsPage q)
    (hqF : q ∉ f.free) (hqT : q ≠ f.page) (ha : a ∈ pageBytes q) : a ∉ uncommitted f := by
  rintro ((hW | hW) | hW)
  · exact not_mem_allocatorBytes (A.rep_page hf.rep) hq hqF ha hW
  · exact not_mem_bytesOf (A.rep_page hf.rep) hq hqF ha hW
  · have := hq.apart hf.isPage hqT
    have := hf.le_tail
    simp only [mem_pageBytes, mem_tailBytes] at *
    omega

/-- So are the slots in front of the tail. -/
theorem Frontier.Holds.not_mem_uncommitted_tail (hf : f.Holds A s.mem) {a : Nat}
    (ha : f.page ≤ a ∧ a < f.tail) : a ∉ uncommitted f := by
  have htl := hf.tail_le
  have hmem : a ∈ pageBytes f.page := by rw [mem_pageBytes]; omega
  rintro ((hW | hW) | hW)
  · exact not_mem_allocatorBytes (A.rep_page hf.rep) hf.isPage hf.notFree hmem hW
  · exact not_mem_bytesOf (A.rep_page hf.rep) hf.isPage hf.notFree hmem hW
  · rw [mem_tailBytes] at hW
    omega

/-- Writing what is uncommitted does no harm. -/
theorem WriteStart.unharmed (h : WriteStart A f s inode)
    (hx : ChangesOnly (uncommitted f) s.mem x.mem) (hindex : x.index = s.index) :
    Unharmed f inode s x := by
  obtain ⟨p, hp, hpF, hpT, hle, hle'⟩ := h.inodePage
  rw [show sizeofAtfsInode = 216 from rfl] at hle'
  have field (g : Field 216) : g.get x.mem inode = g.get s.mem inode := by
    have := g.fits
    refine Field.get_congr fun a ha => hx a (h.holds.not_mem_uncommitted hp hpF hpT ?_)
    rw [Field.bytes, Set.mem_Ico] at ha
    rw [mem_pageBytes]
    omega
  refine ⟨?_, ?_, field _, field _, field _, hindex, hx⟩
  · intro q hq hqF hqT a ha
    refine hx a (h.holds.not_mem_uncommitted hq hqF hqT ?_)
    rw [mem_bodyBytes] at ha
    rw [mem_pageBytes]
    omega
  · intro inode' pages last e hlog hown hbefore a ha
    rw [Set.mem_Ico, show sizeofFileLogEntry = 48 from rfl] at ha
    have hother : ∀ T ∈ last :: pages, T ≠ f.page → T ≤ a ∧ a < T + 4096 → x.mem a = s.mem a := by
      intro T hT hne haT
      obtain ⟨hTp, hTF⟩ := hlog.inUse T hT
      refine hx a (h.holds.not_mem_uncommitted hTp hTF hne ?_)
      rw [mem_pageBytes]
      omega
    have hletail := hlog.le_tail
    have htaille := hlog.tail_le
    -- the log of the inode itself ends in the last page, before which the whole page is kept
    have hself : inode' = inode → last = f.page := by
      rintro rfl
      by_contra hne
      have hlast := (hlog.inUse last List.mem_cons_self).1
      have := hlast.apart h.holds.isPage hne
      have := h.holds.le_tail
      have := h.holds.tail_le
      have := h.tail
      omega
    rw [EntryBefore, show sizeofFileLogEntry = 48 from rfl, pageSize_eq] at hbefore
    obtain ⟨T, hT, hTe, hTe'⟩ | ⟨hlast, htail⟩ := hbefore
    · refine hother T (List.mem_cons_of_mem _ hT) ?_ (by omega)
      rintro rfl
      by_cases hin : inode' = inode
      · exact hlog.last_notMem (hself hin ▸ hT)
      · exact hown hin (List.mem_cons_of_mem _ hT)
    · by_cases hin : inode' = inode
      · refine hx a (h.holds.not_mem_uncommitted_tail ?_)
        have hpage := hself hin
        have hlogTail := h.tail
        rw [hin] at htail
        omega
      · refine hother last List.mem_cons_self (fun hc => hown hin ?_) (by omega)
        rw [← hc]
        exact List.mem_cons_self

/-- A write can be interrupted at any point before it moves the tail of the inode, and what it
leaves behind does no harm. -/
theorem nvmioWrite_interrupted (P : AllocStores A) (h : WriteStart A f s inode) (buf : Memory)
    (cnt fileOff : Nat) (hx : Interrupted (nvmioWriteStores P s inode buf cnt fileOff) x) :
    Unharmed f inode s x := by
  have ho : (writeVars s.mem inode cnt fileOff).offset < 4096 := by
    rw [writeVars_offset]
    exact Nat.mod_lt _ (by decide)
  have hall : ∀ y ∈ nvmioWriteStores P s inode buf cnt fileOff,
      ChangesOnly (uncommitted f) s.mem y.mem ∧ y.index = s.index := by
    intro y hy
    rcases List.mem_cons.1 hy with rfl | hy
    · exact ⟨ChangesOnly.refl _ _, rfl⟩
    · exact writeLoopStores_uncommitted h.holds h.tail ho y hy
  refine h.unharmed (fun a ha => ?_) ?_
  · obtain ⟨y, hy, hya⟩ := hx.mem a
    exact hya.trans ((hall y hy).1 a ha)
  · obtain ⟨y, hy, hyi⟩ := hx.index
    exact hyi.trans (hall y hy).2

/-- On the sample file the write of a page over its edge gets as far as its last store. The stores
of the allocation that it makes are those of `alloc_free_pages`. -/
theorem nvmioWrite_interrupted_sample :
    (∀ m, m = (fileState 0 (fun _ _ => 0) fun _ => offsetNull).mem →
      pageAllocatorStores.stores m 0 2 = allocFreePagesStores m 0 2) ∧
    ∃ x,
    (nvmioWriteStores pageAllocatorStores (fileState 0 (fun _ _ => 0) fun _ => offsetNull) fileInode
        (fun _ => 7) 4096 100).getLast? = some x ∧
      Unharmed fileFrontier fileInode (fileState 0 (fun _ _ => 0) fun _ => offsetNull) x := by
  refine ⟨fun m hm => hm ▸ keptStores_eq fileState_wellFormed (by decide)
    (by decide) fun h => ?_, ?_⟩
  · rw [length_freeLists (by decide)] at h
    exact absurd h (by decide)
  have hmap : Mapped (fun _ => offsetNull) fileFrontier := fun _ hne => absurd rfl hne
  obtain ⟨ret, s', h⟩ := fileState_write_ok 0 (fun _ _ => 0) hmap (show 1 ≤ 4096 by decide)
    (show 100 + 4096 < 2 ^ 64 by decide) (by decide) fun _ => 7
  obtain ⟨x, _, hlast, -⟩ := nvmioWrite_commit pageAllocatorStores h
  have hmem := List.mem_of_getLast? hlast
  exact ⟨x, hlast, nvmioWrite_interrupted pageAllocatorStores
    ⟨fileFrontier_holds, fileState_logTail, fileInode_page⟩ _ _ _
    ⟨fun a => ⟨x, hmem, rfl⟩, x, hmem, rfl⟩⟩

end Interrupted

end Atfs
