import Atfs.Io.Chunk

/-!
# The rounds of a write

Which pages a round of the loop of `nvmio_write` goes through: its first, middle and last
part take every page of the new chain once, in the order of the chain.
-/

namespace Atfs

open ByteMemory LinkedChain

/-- The calls of `writePage` for the first, middle and last part of a chunk: the position in
the page, the number of bytes and how far the user's buffer moves on. -/
def partSteps (offset : Nat) (parts : Nat × Int × Nat) : List (Nat × Nat × Nat) :=
  (if parts.1 ≠ 0 then [(offset, parts.1, pageSize - offset)] else []) ++
    (List.replicate parts.2.1.toNat (0, pageSize, pageSize) ++
      if parts.2.2 ≠ 0 then [(0, parts.2.2, parts.2.2)] else [])

/-- `page_addr` at each of the steps. -/
def visits (buf : Memory) (entryOff : Nat) : List (Nat × Nat × Nat) → Cursor → List Nat
  | [], _ => []
  | (offset, size, step) :: steps, c =>
    c.pageAddr :: visits buf entryOff steps (writePage buf entryOff offset size step c)

/-- The pages the round with the variables `v` copies to, in order. -/
def visitedPages (A : PageAllocator) (buf : Memory) (v : WriteVars) (s : State) :
    Except Fault (List Nat) := do
  let (pages, s) ← A.allocFreePages s v.allocNum
  let (entry, _, s) ← getLogEntry A s v.logTail
  .ok (visits buf entry
    (partSteps v.offset (chunkParts v v.allocNum (chunkSize v v.allocNum)))
    ⟨s.mem, getNvmNode2pageAddr pages, v.userBuf⟩)

/-- The variables and the state at the start of each round of the loop. -/
def writeRounds (A : PageAllocator) (inode : Nat) (buf : Memory) :
    Nat → WriteVars → State → List (WriteVars × State)
  | 0, _, _ => []
  | fuel + 1, v, s =>
    if v.pageNums > 0 then
      (v, s) :: match writeChunk A inode buf v s with
        | .ok (v', s') => writeRounds A inode buf fuel v' s'
        | .error _ => []
    else []

section Visits

variable {buf : Memory} {e p : Nat} {l : List Nat} {c : Cursor} {o w n : Nat}

/-- The steps are those `writePages` takes. -/
theorem writePages_eq_foldl (buf : Memory) (e offset : Nat) (parts : Nat × Int × Nat) (c : Cursor) :
    writePages buf e offset parts c = (partSteps offset parts).foldl
      (fun c step => writePage buf e step.1 step.2.1 step.2.2 c) c := by
  obtain ⟨first, mid, last⟩ := parts
  have middle (k : Nat) (c : Cursor) :
      (List.replicate k ((0, pageSize, pageSize) : Nat × Nat × Nat)).foldl
        (fun c step => writePage buf e step.1 step.2.1 step.2.2 c) c =
      (writePage buf e 0 pageSize pageSize)^[k] c := by
    induction k generalizing c with
    | zero => rfl
    | succ k ih => exact ih _
  rw [writePages, partSteps, List.foldl_append, List.foldl_append, middle]
  split_ifs <;> rfl

theorem pageLink_writePage {q size step : Nat} (hc : IsPage c.pageAddr) (hq : IsPage q)
    (hfit : o + size ≤ 4096) : pageLink (writePage buf e o size step c).mem q =
    pageLink c.mem q := by
  refine hq.pageLink_congr fun a ha => ?_
  rw [Set.mem_Ico] at ha
  have hout : c.pageAddr = q ∨ c.pageAddr + 4136 ≤ q ∨ q + 4136 ≤ c.pageAddr := by
    by_cases h : c.pageAddr = q
    · exact .inl h
    · exact .inr (hc.apart hq h)
  rw [writePage]
  refine (copy_apply_of_outside _ _ (by omega)).trans (Field.set_apply_of_outside _ _ ?_)
  rw [hc.getNvmPage2nodeAddr_eq, ListNode.logEntry_off, ListNode.logEntry_size]
  omega

/-- As many steps as the chain has pages go through the chain. -/
theorem visits_eq {steps : List (Nat × Nat × Nat)}
    (hl : Segment (pageLink c.mem) c.pageAddr l offsetNull) (hpage : ∀ q ∈ l, IsPage q)
    (hfit : ∀ step ∈ steps, step.1 + step.2.1 ≤ 4096) (hlen : steps.length = l.length) :
    visits buf e steps c = l := by
  induction l generalizing c steps with
  | nil =>
    rw [List.length_nil, List.length_eq_zero_iff] at hlen
    rw [hlen, visits]
  | cons q l ih =>
    obtain ⟨⟨offset, size, step⟩, steps, rfl⟩ := List.exists_cons_of_length_eq_add_one hlen
    obtain ⟨rfl, hrest⟩ := hl
    have hq := hpage c.pageAddr (by simp)
    have hfit₁ := hfit (offset, size, step) (by simp)
    have hlink (r : Nat) (hr : IsPage r) :
        pageLink (writePage buf e offset size step c).mem r = pageLink c.mem r :=
      pageLink_writePage hq hr hfit₁
    rw [visits]
    refine congrArg _ ?_
    cases l with
    | nil =>
      obtain rfl : steps = [] := by simpa using hlen
      rfl
    | cons r l =>
      -- the chain goes on, so `page_addr` moves to its next page
      have hnext : (writePage buf e offset size step c).pageAddr = pageLink c.mem c.pageAddr := by
        have hr : pageLink c.mem c.pageAddr ≠ offsetNull := by
          rw [hrest.head_eq]
          exact (hpage r (by simp)).ne_offsetNull
        have hmoved := hlink c.pageAddr hq
        rw [hq.pageLink_eq, ← hq.getNvmPage2nodeAddr_eq] at hmoved
        rw [writePage] at hmoved ⊢
        simp only at hmoved ⊢
        rw [hmoved, if_pos hr]
      refine ih ?_ (fun q hq => hpage q (List.mem_cons_of_mem _ hq))
        (fun step hstep => hfit step (List.mem_cons_of_mem _ hstep)) (by simpa using hlen)
      rw [hnext]
      exact hrest.congr fun r hr => (hlink r (hpage r (List.mem_cons_of_mem _ hr))).symm

/-- The parts account for every page of the chunk once. -/
theorem partSteps_partsOf (ho : o < 4096) (hwpos : 1 ≤ w) (hn : 1 ≤ n)
    (hw : 4096 * (n - 1) < o + w) (hw' : o + w ≤ 4096 * n) :
    0 ≤ (partsOf n o w).2.1 ∧ (partSteps o (partsOf n o w)).length = n ∧
      ∀ step ∈ partSteps o (partsOf n o w), step.1 + step.2.1 ≤ 4096 := by
  rw [partsOf, partSteps, pageSize_eq]
  by_cases h1 : n = 1
  · subst h1
    simp [show w ≠ 0 by omega]
    omega
  · rw [if_neg h1]
    simp only [List.length_append, List.length_replicate, List.mem_append, List.mem_replicate]
    refine ⟨?_, ?_, ?_⟩
    · split_ifs <;> omega
    · split_ifs <;> simp only [List.length_singleton, List.length_nil] <;> omega
    · rintro step (h | ⟨-, rfl⟩ | h)
      · split_ifs at h
        all_goals simp at h
        all_goals subst h; simp only; omega
      · simp
      · split_ifs at h
        all_goals simp at h
        all_goals subst h; simp only; omega

end Visits

section Rounds

variable {A : PageAllocator} {buf : Memory} {inode : Nat} {f : Frontier}
  {v v' : WriteVars} {s s' : State}

/-- A round is about the entry it appends: its parts go through the pages of the entry. -/
def RoundOf (A : PageAllocator) (buf : Memory) (E : LogEntry) (r : WriteVars × State) : Prop :=
  0 ≤ (chunkParts r.1 r.1.allocNum (chunkSize r.1 r.1.allocNum)).2.1 ∧
    visitedPages A buf r.1 r.2 = .ok E.pages

theorem writeChunk_visits (hf : f.Holds A s.mem) (htail : v.logTail = f.tail) (hv : v.Valid)
    (hmap : Mapped (s.index inode) f) (hsize : v.fileSize < 2 ^ 64)
    (h : writeChunk A inode buf v s = .ok (v', s')) :
    ∃ f' E, ChunkStep A buf (s.index inode) f f' v v' s.mem s'.mem E ∧ s'.index = s.index ∧
      RoundOf A buf E (v, s) := by
  have hn := hv.allocNum_bounds
  have hw := hv.chunk_bounds
  obtain ⟨f', E, p, s₁, s₂, halloc, hentry, hob, hstep, hindex⟩ :=
    writeChunk_obtained hf htail hv hmap hsize h
  have hp : IsPage p := hob.chain.page p (hob.chain.head_mem (by rw [hstep.length]; exact hn.1))
  obtain ⟨hmid, hlen, hfit⟩ := partSteps_partsOf hv.offset_lt hw.1 hn.1 hw.2.1 hw.2.2
  refine ⟨f', E, hstep, hindex, ?_, ?_⟩
  · simp only [hv.chunkParts_eq]
    exact hmid
  · simp only [visitedPages, hv.chunkParts_eq]
    refine bind_eq_ok.2 ⟨_, halloc, bind_eq_ok.2 ⟨_, hentry, congrArg _ ?_⟩⟩
    simp only [hp.getNvmNode2pageAddr_eq]
    exact visits_eq hob.chain.chain hob.chain.page hfit (by rw [hlen, hstep.length])

/-- A round starts with the first of the pages that the allocator hands out. -/
theorem RoundOf.head {E : LogEntry} {q : Nat} (h : RoundOf A buf E (v, s))
    (hq : E.pages[0]? = some q) : ∃ node s₁, A.allocFreePages s v.allocNum = .ok (node, s₁) ∧
      q = getNvmNode2pageAddr node := by
  obtain ⟨-, hvisited⟩ := h
  obtain ⟨⟨node, s₁⟩, halloc, hvisited⟩ := bind_eq_ok.1 hvisited
  obtain ⟨⟨e, tail', s₂⟩, -, hvisited⟩ := bind_eq_ok.1 hvisited
  simp only [Except.ok.injEq] at hvisited
  refine ⟨node, s₁, halloc, ?_⟩
  rw [← hvisited] at hq
  generalize partSteps v.offset _ = steps at hq
  cases steps with
  | nil => simp [visits] at hq
  | cons step steps =>
    rw [visits, List.getElem?_cons_zero, Option.some.injEq] at hq
    exact hq.symm

end Rounds

end Atfs
