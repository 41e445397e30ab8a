import Atfs.Allocator.Basic

/-!
# Initialising the page lists (super.c)

`kernel_page_list_init` threads all pages onto the global list and means to move
512 of them to a local list. The loop that counts the 512 nodes also cuts the list
and subtracts the count at every step, and the local list it takes is the one with
the number of the last page. `kernelPageListInit_not_established` is the outcome:
whatever the region held, the global list ends up empty with a count that is not.
-/

namespace Atfs

open ByteMemory LinkedChain

/-- The first `i` rounds of the loop that threads the nodes: the memory and `prev`. -/
def threadNodes (m : Memory) : Nat → Memory × Option Nat
  | 0 => (m, none)
  | i + 1 =>
    let (m, prev) := threadNodes m i
    let node := getFreeSpaceBaseAddr + (i * atfsPageSize + pageSize)
    let m := ListNode.offset.set m node (getFreeSpaceBaseAddr + i * atfsPageSize)
    let m := match prev with
      | none => ListNode.nextOffset.set m node offsetNull
      | some prev => ListNode.nextOffset.set m node (ListNode.offset.get m prev)
    (m, some node)

/-- The loop that threads `n` nodes, and the global head set behind it. -/
def threadPages (m : Memory) (n : Nat) : Memory :=
  -- `prev` is set by every round, and there is at least one
  let t := threadNodes m n
  PageList.head.set t.1 getPageListBaseAddr (ListNode.offset.get t.1 (t.2.getD 0))

/-- One round of the loop over `j`: the memory and `node`. -/
def splitRound (localPageList : Nat) : Memory × Nat → Memory × Nat
  | (m, node) =>
    let globalPageList := getPageListBaseAddr
    let node := nextNode m node
    let m := PageList.head.set m globalPageList (ListNode.nextOffset.get m node)
    let m := ListNode.nextOffset.set m node offsetNull
    let m := PageList.count.set m globalPageList
      (subU64 (PageList.count.get m globalPageList) fillLocalPageListMax)
    let m := PageList.count.set m localPageList fillLocalPageListMax
    (pthreadMutexInit m (localPageList + PageList.mutex.off), node)

def kernelPageListInit (m : Memory) : Memory :=
  let freeNumPages := nvmFreeNumPages
  let globalPageList := getPageListBaseAddr
  let m := pthreadMutexInit m (globalPageList + PageList.mutex.off)
  let m := PageList.count.set m globalPageList freeNumPages
  let m := threadPages m freeNumPages
  -- the counter `i` of the loop above has run up to `free_num_pages`
  let localPageList := getLocalPageListAddr freeNumPages
  let node := getNvmPageNodeAddr (PageList.head.get m globalPageList)
  let m := PageList.head.set m localPageList (ListNode.offset.get m node)
  ((splitRound localPageList)^[fillLocalPageListMax - 1] (m, node)).1

/-- The page lists are initialised: all lists are well formed and hold every page, and
only the page-list table and the page nodes differ from `m₀`. -/
structure Established (m₀ m : Memory) (lists : Nat → List Nat) : Prop where
  wellFormed : WellFormed m lists
  covers : freeOf lists = {p | IsPage p}
  frame : ∀ a, ¬ (49152 ≤ a ∧ a < 49152 + 56 * (gCpuNums + 1)) →
    (∀ p, IsPage p → ¬ (p + 4096 ≤ a ∧ a < p + 4136)) → m a = m₀ a

/-! ## The threading loop -/

theorem threadNodes_count (m : Memory) (n : Nat) :
    PageList.count.get (threadNodes m n).1 getPageListBaseAddr =
      PageList.count.get m getPageListBaseAddr := by
  have keep (f : Field 40) (m : Memory) (i v : Nat) : PageList.count.get
      (f.set m (getFreeSpaceBaseAddr + (i * atfsPageSize + pageSize)) v) getPageListBaseAddr =
        PageList.count.get m getPageListBaseAddr := by
    refine Field.get_set_of_apart _ _ _ ?_
    rw [getPageListBaseAddr_eq, getFreeSpaceBaseAddr_eq, pageSize_eq]
    omega
  induction n with
  | zero => rfl
  | succ n ih =>
    rw [threadNodes]
    rcases h : threadNodes m n with ⟨m', _ | prev⟩
    · rw [h] at ih
      exact (keep _ _ _ _).trans ((keep _ _ _ _).trans ih)
    · rw [h] at ih
      exact (keep _ _ _ _).trans ((keep _ _ _ _).trans ih)

theorem threadNodes_changesOnly (m : Memory) (n : Nat) :
    ChangesOnly (Set.Ici 4095) m (threadNodes m n).1 := by
  have keep (f : Field 40) (m : Memory) (i v : Nat) : ChangesOnly (Set.Ici 4095) m
      (f.set m (getFreeSpaceBaseAddr + (i * atfsPageSize + pageSize)) v) := by
    refine f.changesOnly_set_above m v ?_
    rw [getFreeSpaceBaseAddr_eq]
    omega
  induction n with
  | zero => exact ChangesOnly.refl _ _
  | succ n ih =>
    rw [threadNodes]
    rcases h : threadNodes m n with ⟨m', _ | prev⟩
    · rw [h] at ih
      exact (ih.trans (keep _ _ _ _)).trans (keep _ _ _ _)
    · rw [h] at ih
      exact (ih.trans (keep _ _ _ _)).trans (keep _ _ _ _)

/-- After `i + 1` rounds `prev` is the node of page `i`, which knows its offset. -/
theorem threadNodes_prev (m : Memory) (i : Nat) (hi : i < nvmFreeNumPages) :
    (threadNodes m (i + 1)).2 = some (pageOff i + 4096) ∧
      ListNode.offset.get (threadNodes m (i + 1)).1 (pageOff i + 4096) = pageOff i := by
  have hnode : getFreeSpaceBaseAddr + (i * atfsPageSize + pageSize) = pageOff i + 4096 := by
    rw [pageOff_eq, getFreeSpaceBaseAddr_eq, atfsPageSize_eq, pageSize_eq]
    omega
  have hoff : getFreeSpaceBaseAddr + i * atfsPageSize = pageOff i := by
    rw [pageOff_eq, getFreeSpaceBaseAddr_eq, atfsPageSize_eq]
  have hlt := IsPage.bounds ⟨i, hi, rfl⟩
  rw [threadNodes]
  refine ⟨by rw [hnode], ?_⟩
  simp only [hnode, hoff]
  cases (threadNodes m i).2 with
  | none =>
    rw [Field.get_set_of_disjoint _ _ _ (by simp), Field.get_set_self_of_lt _ _ (by simp; omega)]
  | some prev =>
    rw [Field.get_set_of_disjoint _ _ _ (by simp), Field.get_set_self_of_lt _ _ (by simp; omega)]

/-- The last node threaded is linked to the one before it. -/
theorem threadNodes_link (m : Memory) (i : Nat) (hi : i + 1 < nvmFreeNumPages) :
    ListNode.nextOffset.get (threadNodes m (i + 2)).1 (pageOff (i + 1) + 4096) = pageOff i := by
  have hnode : getFreeSpaceBaseAddr + ((i + 1) * atfsPageSize + pageSize) =
      pageOff (i + 1) + 4096 := by
    rw [pageOff_eq, getFreeSpaceBaseAddr_eq, atfsPageSize_eq, pageSize_eq]
    omega
  have hlt := IsPage.bounds ⟨i, by omega, rfl⟩
  obtain ⟨hprev, hoff⟩ := threadNodes_prev m i (by omega)
  have hne : pageOff i ≠ pageOff (i + 1) := fun h => by
    have := pageOff_injective h
    omega
  rw [threadNodes]
  simp only [hprev, hnode]
  rw [IsPage.get_set_node ⟨i, by omega, rfl⟩ ⟨i + 1, hi, rfl⟩ hne, hoff]
  exact Field.get_set_self_of_lt _ _ (by simp; omega)

/-- After the threading loop the last page is the global head, linked to the one before. -/
theorem threadPages_spec (m : Memory) (i : Nat) (hi : i + 1 < nvmFreeNumPages) :
    PageList.head.get (threadPages m (i + 2)) 49152 = pageOff (i + 1) ∧
      PageList.count.get (threadPages m (i + 2)) 49152 = PageList.count.get m 49152 ∧
      ListNode.offset.get (threadPages m (i + 2)) (pageOff (i + 1) + 4096) = pageOff (i + 1) ∧
      ListNode.nextOffset.get (threadPages m (i + 2)) (pageOff (i + 1) + 4096) = pageOff i := by
  obtain ⟨hprev, hoff⟩ := threadNodes_prev m (i + 1) hi
  have hlt := IsPage.bounds ⟨i + 1, hi, rfl⟩
  have hset : threadPages m (i + 2) =
      PageList.head.set (threadNodes m (i + 2)).1 49152 (pageOff (i + 1)) := by
    rw [threadPages, hprev, Option.getD_some, hoff]
    rfl
  rw [hset]
  refine ⟨?_, ?_, ?_, ?_⟩
  · exact Field.get_set_self_of_lt _ _ (by simp; omega)
  · exact (Field.get_set_of_disjoint _ _ _ (by simp)).trans (threadNodes_count m (i + 2))
  · exact (Field.get_set_of_disjoint _ _ _ (by simp; omega)).trans hoff
  · exact (Field.get_set_of_disjoint _ _ _ (by simp; omega)).trans (threadNodes_link m i hi)

/-! ## The splitting loop -/

/-- The address of the list the code takes for the local one. -/
theorem strayListAddr : getLocalPageListAddr nvmFreeNumPages = 232657024 := by
  rw [getLocalPageListAddr_eq, nvmFreeNumPages_eq]

theorem splitRound_changesOnly {m : Memory} {node : Nat} (h : 4095 ≤ nextNode m node) :
    ChangesOnly (Set.Ici 4095) m (splitRound 232657024 (m, node)).1 := by
  simp only [splitRound, getPageListBaseAddr_eq, pthreadMutexInit]
  refine ((((Field.changesOnly_set_above _ _ _ (by simp)).trans
    (Field.changesOnly_set_above _ _ _ (by simpa using h))).trans
    (Field.changesOnly_set_above _ _ _ (by simp))).trans
    (Field.changesOnly_set_above _ _ _ (by simp))).trans (changesOnly_fill_above _ _ _ (by simp))

theorem nextOffset_splitRound (m : Memory) (node : Nat)
    (h : nextNode m node + 8 ≤ 49152 ∨ 49168 ≤ nextNode m node)
    (h' : nextNode m node + 8 ≤ 232657024 ∨ 232657080 ≤ nextNode m node) :
    ListNode.nextOffset.get (splitRound 232657024 (m, node)).1 (nextNode m node) = offsetNull := by
  simp only [splitRound, getPageListBaseAddr_eq, pthreadMutexInit]
  rw [Field.get_fill_of_disjoint (by simp; omega), Field.get_set_of_disjoint _ _ _ (by simp; omega),
    Field.get_set_of_disjoint _ _ _ (by simp; omega)]
  exact Field.get_set_self_of_lt _ _ (by decide)

theorem count_splitRound (m : Memory) (node : Nat)
    (h : nextNode m node + 8 ≤ 49152 ∨ 49168 ≤ nextNode m node) :
    PageList.count.get (splitRound 232657024 (m, node)).1 49152 =
      subU64 (PageList.count.get m 49152) 512 := by
  simp only [splitRound, getPageListBaseAddr_eq, pthreadMutexInit]
  rw [Field.get_fill_of_disjoint (by simp), Field.get_set_of_disjoint _ _ _ (by simp),
    Field.get_set_self_of_lt PageList.count _ (subU64_lt _ _),
    Field.get_set_of_disjoint _ _ _ (by simp; omega), Field.get_set_of_disjoint _ _ _ (by simp)]
  rfl

theorem head_splitRound (m : Memory) (node : Nat)
    (h : nextNode m node + 8 ≤ 49152 ∨ 49168 ≤ nextNode m node) :
    PageList.head.get (splitRound 232657024 (m, node)).1 49152 =
      ListNode.nextOffset.get m (nextNode m node) := by
  simp only [splitRound, getPageListBaseAddr_eq, pthreadMutexInit]
  rw [Field.get_fill_of_disjoint (by simp), Field.get_set_of_disjoint _ _ _ (by simp),
    Field.get_set_of_disjoint _ _ _ (by simp), Field.get_set_of_disjoint _ _ _ (by simp; omega)]
  exact Field.get_set_self_of_lt _ _ (Field.get_lt ListNode.nextOffset _ _)

/-- Once the walk has fallen off the list, it stays on the node of the end marker. -/
structure Fallen (k c : Nat) (s : Memory × Nat) : Prop where
  node : s.2 = 4095
  link : ListNode.nextOffset.get s.1 4095 = offsetNull
  count : PageList.count.get s.1 49152 = c - 512 * k

theorem Fallen.round {k c : Nat} {s : Memory × Nat} (h : Fallen k c s)
    (hc : 512 * (k + 1) ≤ c) (hc' : c < 2 ^ 64) :
    Fallen (k + 1) c (splitRound 232657024 s) ∧
      PageList.head.get (splitRound 232657024 s).1 49152 = offsetNull ∧
      ChangesOnly (Set.Ici 4095) s.1 (splitRound 232657024 s).1 := by
  obtain ⟨m, node⟩ := s
  obtain ⟨rfl, hlink, hcount⟩ := h
  have hnext : nextNode m 4095 = 4095 := by
    rw [nextNode, show ListNode.nextOffset.get m 4095 = offsetNull from hlink]
    rfl
  refine ⟨⟨hnext, ?_, ?_⟩, ?_, splitRound_changesOnly hnext.ge⟩
  · have := nextOffset_splitRound m 4095 (by omega) (by omega)
    rwa [hnext] at this
  · rw [count_splitRound m 4095 (by omega), show PageList.count.get m 49152 = _ from hcount,
      subU64_of_le (by omega) (by omega)]
    omega
  · rw [head_splitRound m 4095 (by omega), hnext]
    exact hlink

/-- From the third round on the global list is empty. -/
theorem Fallen.rounds {k c n : Nat} {s : Memory × Nat} (h : Fallen k c s) (hn : 1 ≤ n)
    (hc : 512 * (k + n) ≤ c) (hc' : c < 2 ^ 64) :
    Fallen (k + n) c ((splitRound 232657024)^[n] s) ∧
      PageList.head.get ((splitRound 232657024)^[n] s).1 49152 = offsetNull ∧
      ChangesOnly (Set.Ici 4095) s.1 ((splitRound 232657024)^[n] s).1 := by
  induction n with
  | zero => omega
  | succ n ih =>
    rw [Function.iterate_succ_apply']
    by_cases h0 : n = 0
    · subst h0
      exact h.round (by omega) hc'
    · obtain ⟨hfallen, -, hkeep⟩ := ih (by omega) (by omega)
      obtain ⟨hfallen', hhead, hkeep'⟩ := hfallen.round (by omega) hc'
      exact ⟨hfallen', hhead, hkeep.trans hkeep'⟩

/-- What the splitting loop is entered with: the last page is the head of both lists. -/
theorem kernelPageListInit_eq (m : Memory) :
    ∃ m₀, kernelPageListInit m = ((splitRound 232657024)^[511] (m₀, pageOff 4153711 + 4096)).1 ∧
      PageList.count.get m₀ 49152 = 4153712 ∧
      ListNode.nextOffset.get m₀ (pageOff 4153711 + 4096) = pageOff 4153710 ∧
      ChangesOnly (Set.Ici 4095) m m₀ := by
  have last : nvmFreeNumPages = 4153710 + 2 := nvmFreeNumPages_eq
  have hp := pageOff_eq 4153711
  generalize hm₁ : PageList.count.set (pthreadMutexInit m (49152 + PageList.mutex.off)) 49152
    nvmFreeNumPages = m₁
  have hinit : PageList.count.get m₁ 49152 = 4153712 := by
    rw [← hm₁, nvmFreeNumPages_eq]
    exact Field.get_set_self_of_lt _ _ (by decide)
  obtain ⟨head, count, offset, link⟩ := threadPages_spec m₁ 4153710 (by omega)
  have node : getNvmPageNodeAddr (pageOff 4153711) = pageOff 4153711 + 4096 :=
    IsPage.getNvmPageNodeAddr_eq ⟨4153711, by omega, rfl⟩
  rw [← last] at head count offset link
  refine ⟨PageList.head.set (threadPages m₁ nvmFreeNumPages) 232657024 (pageOff 4153711),
    ?_, ?_, ?_, ?_⟩
  · rw [kernelPageListInit, getPageListBaseAddr_eq, hm₁, head, node, offset, strayListAddr]
    rfl
  · exact (Field.get_set_of_disjoint _ _ _ (by simp)).trans (count.trans hinit)
  · exact (Field.get_set_of_disjoint _ _ _ (by simp; omega)).trans link
  · have hmutex : ChangesOnly (Set.Ici 4095) m (pthreadMutexInit m (49152 + PageList.mutex.off)) :=
      changesOnly_fill_above m 40 0 (by simp)
    have hcount : ChangesOnly (Set.Ici 4095) m m₁ := hm₁ ▸
      hmutex.trans (PageList.count.changesOnly_set_above _ _ (by simp))
    have hpages : ChangesOnly (Set.Ici 4095) m₁ (threadPages m₁ nvmFreeNumPages) :=
      (threadNodes_changesOnly _ _).trans (PageList.head.changesOnly_set_above _ _ (by
        rw [getPageListBaseAddr_eq]
        omega))
    exact (hcount.trans hpages).trans (PageList.head.changesOnly_set_above _ _ (by simp))

/-- Whatever the region held, the global list ends up empty with a count of 3892080; the
bytes below the node of the end marker are not written. -/
theorem kernelPageListInit_run (m : Memory) :
    PageList.head.get (kernelPageListInit m) 49152 = offsetNull ∧
      PageList.count.get (kernelPageListInit m) 49152 = 3892080 ∧
      ChangesOnly (Set.Ici 4095) m (kernelPageListInit m) := by
  have hp := pageOff_eq 4153711
  have hq := pageOff_eq 4153710
  obtain ⟨m₀, heq, hcount, hlink, hkeep₀⟩ := kernelPageListInit_eq m
  -- the first round steps to the last page but one, and cuts its link
  have next₁ : nextNode m₀ (pageOff 4153711 + 4096) = pageOff 4153710 + 4096 := by
    rw [nextNode, hlink]
    exact IsPage.getNvmPageNodeAddr_eq ⟨4153710, by rw [nvmFreeNumPages_eq]; omega, rfl⟩
  have link₁ := nextOffset_splitRound m₀ (pageOff 4153711 + 4096) (by omega) (by omega)
  have count₁ := count_splitRound m₀ (pageOff 4153711 + 4096) (by omega)
  have hkeep₁ : ChangesOnly (Set.Ici 4095) m₀
      (splitRound 232657024 (m₀, pageOff 4153711 + 4096)).1 :=
    splitRound_changesOnly (by omega)
  rw [next₁] at link₁
  rw [hcount] at count₁
  have node₁ : (splitRound 232657024 (m₀, pageOff 4153711 + 4096)).2 = pageOff 4153710 + 4096 :=
    next₁
  rcases hs₁ : splitRound 232657024 (m₀, pageOff 4153711 + 4096) with ⟨m₁, n₁⟩
  rw [hs₁] at link₁ count₁ node₁ hkeep₁
  rw [show n₁ = pageOff 4153710 + 4096 from node₁] at hs₁
  -- so the second falls off the list
  have next₂ : nextNode m₁ (pageOff 4153710 + 4096) = 4095 := by
    rw [nextNode, link₁]
    rfl
  have fallen : Fallen 2 4153712 (splitRound 232657024 (m₁, pageOff 4153710 + 4096)) := by
    refine ⟨next₂, ?_, ?_⟩
    · have := nextOffset_splitRound m₁ (pageOff 4153710 + 4096) (by omega) (by omega)
      rwa [next₂] at this
    · rw [count_splitRound m₁ _ (by omega), count₁]
      rfl
  have hkeep₂ : ChangesOnly (Set.Ici 4095) m₁
      (splitRound 232657024 (m₁, pageOff 4153710 + 4096)).1 :=
    splitRound_changesOnly next₂.ge
  obtain ⟨last, hhead, hkeep⟩ := fallen.rounds (n := 509) (by omega) (by omega) (by omega)
  rw [heq, show 511 = 509 + 1 + 1 from rfl, Function.iterate_succ_apply,
    Function.iterate_succ_apply, hs₁]
  exact ⟨hhead, last.count, ((hkeep₀.trans hkeep₁).trans hkeep₂).trans hkeep⟩

theorem kernelPageListInit_final (m : Memory) :
    PageList.head.get (kernelPageListInit m) 49152 = offsetNull ∧
      PageList.count.get (kernelPageListInit m) 49152 = 3892080 :=
  ⟨(kernelPageListInit_run m).1, (kernelPageListInit_run m).2.1⟩

/-- A null head leaves no page on the global list, whatever its count says. -/
theorem WellFormed.global_count {m : Memory} {lists : Nat → List Nat} (h : WellFormed m lists)
    (head : PageList.head.get m 49152 = offsetNull) : PageList.count.get m 49152 = 0 := by
  have zero := getLocalPageListAddr_eq 0
  obtain ⟨chain, count⟩ := h.rep 0 (Nat.zero_le _)
  rw [zero] at chain count
  rw [count]
  cases hl : lists 0 with
  | nil => rfl
  | cons p l =>
    rw [hl, head] at chain
    have hp := (h.page 0 (Nat.zero_le _) p (by simp [hl])).1
    exact absurd chain.head_eq.symm hp.ne_offsetNull

/-- `kernel_page_list_init` never establishes the allocator invariant. -/
theorem kernelPageListInit_not_established (m₀ : Memory) (lists : Nat → List Nat) :
    ¬ Established m₀ (kernelPageListInit m₀) lists := by
  intro h
  obtain ⟨head, count⟩ := kernelPageListInit_final m₀
  have := h.wellFormed.global_count head
  omega

/-- The zero-filled region in particular is left with an empty global list. -/
theorem kernelPageListInit_zero :
    PageList.head.get (kernelPageListInit fun _ => 0) 49152 = offsetNull ∧
      ¬ ∃ lists, Established (fun _ => 0) (kernelPageListInit fun _ => 0) lists := by
  obtain ⟨head, count⟩ := kernelPageListInit_final fun _ => 0
  refine ⟨head, ?_⟩
  rintro ⟨lists, h⟩
  have := h.wellFormed.global_count head
  omega

end Atfs
