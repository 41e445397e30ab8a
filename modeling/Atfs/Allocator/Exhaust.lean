import Atfs.Allocator.Account

/-!
# Running out of pages

The pages whose nodes an allocation follows, along the loops of `fill_local_page_list` and
`alloc_free_pages`. The code tests for no end of a list, so it follows `OFFSET_NULL` wherever the
global list is too short for a refill, a refilled local list has a single page, or no page is
asked for; a request gets through exactly where none of this happens.
-/

namespace Atfs

open ByteMemory LinkedChain

/-! ## The nodes that are followed -/

/-- The nodes of the local list that `fill_local_page_list` reads. -/
def headVisits (m : Memory) (localPageList : Nat) : List Nat :=
  let head := PageList.head.get m localPageList
  if head = offsetNull then [] else [head, pageLink m head]

/-- `fill_local_page_list` as far as the cut of the global list. -/
def cutGlobal (m : Memory) (pageCnt : Nat) : Memory :=
  let globalPageList := getPageListBaseAddr
  let nodeHead := getNvmPageNodeAddr (PageList.head.get m globalPageList)
  let node := (nextNode m)^[pageCnt - 1] nodeHead
  let m := PageList.head.set m globalPageList (ListNode.nextOffset.get m node)
  ListNode.nextOffset.set m node offsetNull

/-- The pages whose nodes `fill_local_page_list` reads, in order. -/
def fillVisits (m : Memory) (localPageList pageCnt : Nat) : List Nat :=
  chainFrom m (PageList.head.get m getPageListBaseAddr) pageCnt ++
    headVisits (cutGlobal m pageCnt) localPageList

def refillVisits (localPageList pageNum : Nat) : Nat → Memory → List Nat
  | 0, _ => []
  | fuel + 1, m =>
    let count := PageList.count.get m localPageList
    if count = 0 ∨ count < pageNum then
      fillVisits m localPageList fillLocalPageListMax ++
        refillVisits localPageList pageNum fuel
          (fillLocalPageList m localPageList fillLocalPageListMax)
    else []

/-- The counts of the global list that the refills of an allocation subtract from. -/
def refillCounts (localPageList pageNum : Nat) : Nat → Memory → List Nat
  | 0, _ => []
  | fuel + 1, m =>
    let count := PageList.count.get m localPageList
    if count = 0 ∨ count < pageNum then
      PageList.count.get m getPageListBaseAddr ::
        refillCounts localPageList pageNum fuel
          (fillLocalPageList m localPageList fillLocalPageListMax)
    else []

/-- The pages whose nodes `alloc_free_pages` reads, in order. -/
def allocVisits (m : Memory) (currentCpu pageNum : Nat) : List Nat :=
  let localPageList := getLocalPageListAddr (localIndex currentCpu)
  refillVisits localPageList pageNum (pageNum + 2) m ++
    match refillLocalPageList localPageList pageNum (pageNum + 2) m with
    | some m => chainFrom m (PageList.head.get m localPageList) (decU32 pageNum + 1)
    | none => []

/-- The request follows pages only and takes from the global list only what it has; it is served if
the lists hold enough pages between them, and else answered by the null pointer, with all lists as
they were. `base` is the address of the region. -/
structure Graceful (base : Nat) (m : Memory) (lists : Nat → List Nat)
    (currentCpu n : Nat) : Prop where
  visits : ∀ p ∈ allocVisits m currentCpu n, p ≠ offsetNull
  counts : ∀ c ∈ refillCounts (getLocalPageListAddr (localIndex currentCpu)) n (n + 2) m,
    fillLocalPageListMax ≤ c
  served : 1 ≤ n → n ≤ (lists (localIndex currentCpu)).length + (lists 0).length →
    AllocExact m lists currentCpu n
  refused : (lists (localIndex currentCpu)).length + (lists 0).length < n →
    ∃ m' currentCpu', allocFreePages m currentCpu n = some (subU64 0 base, m', currentCpu') ∧
      WellFormed m' lists

/-- The refills that a request of `n` pages makes at a list of `c` pages. -/
def refillsFor (c n : Nat) : Nat := (n - c + (fillLocalPageListMax - 1)) / fillLocalPageListMax

/-- The global list has the pages for all refills, and no list of a single page is refilled. -/
def Enough (lists : Nat → List Nat) (i n : Nat) : Prop :=
  1 ≤ n ∧ ((lists i).length = 1 → n = 1) ∧
    fillLocalPageListMax * refillsFor (lists i).length n ≤ (lists 0).length

/-! ## Walks -/

section Walk

variable {m : Memory} {p n : Nat} {l : List Nat}

theorem chainFrom_take (h : Segment (pageLink m) p l offsetNull) (hn : n ≤ l.length) :
    chainFrom m p n = l.take n := by
  refine List.ext_getElem (by simp [chainFrom, hn]) fun k h₁ h₂ => ?_
  rw [List.length_take] at h₂
  simp only [chainFrom, List.getElem_map, List.getElem_range, List.getElem_take]
  exact h.iterate (by omega)

/-- A walk that is too long meets the end of the list. -/
theorem offsetNull_mem_chainFrom (h : Segment (pageLink m) p l offsetNull) (hn : l.length < n) :
    offsetNull ∈ chainFrom m p n :=
  List.mem_map.2 ⟨l.length, List.mem_range.2 hn, h.iterate_length⟩

end Walk

section Refills

variable {m : Memory} {i x c₀ c n : Nat} {xs rest l G : List Nat}

/-- The nodes of the local list that a refill reads. -/
def spliceVisits : List Nat → List Nat
  | [] => []
  | [y] => [y, offsetNull]
  | y :: z :: _ => [y, z]

theorem mem_of_mem_spliceVisits {p : Nat} (hone : l.length ≠ 1) (hp : p ∈ spliceVisits l) :
    p ∈ l := by
  fun_cases spliceVisits l with
  | case1 => exact hp
  | case2 y => exact absurd rfl hone
  | case3 y z t =>
    simp only [spliceVisits, List.mem_cons, List.not_mem_nil, or_false] at hp
    grind

theorem headVisits_eq
    (h : Segment (pageLink m) (PageList.head.get m (getLocalPageListAddr i)) l offsetNull)
    (hpage : ∀ q ∈ l, IsPage q) : headVisits m (getLocalPageListAddr i) = spliceVisits l := by
  unfold headVisits
  cases l with
  | nil => exact if_pos (segment_nil.1 h)
  | cons y t =>
    have hy := hpage y List.mem_cons_self
    simp only [h.head_eq, if_neg hy.ne_offsetNull]
    cases t with
    | nil => rw [spliceVisits, segment_nil.1 h.2]
    | cons z t => rw [spliceVisits, h.2.head_eq]

/-- The cut leaves the local list alone. -/
theorem RefillPre.cutGlobal (h : RefillPre m i xs x rest l c₀ c) :
    Segment (pageLink (cutGlobal m fillLocalPageListMax))
      (PageList.head.get (cutGlobal m fillLocalPageListMax) (getLocalPageListAddr i))
        l offsetNull := by
  have hbase : getPageListBaseAddr = getLocalPageListAddr 0 := rfl
  have hwalk := h.walk
  have hx := h.isPage_x
  rw [hbase] at hwalk
  have hcut : Atfs.cutGlobal m fillLocalPageListMax =
      ListNode.nextOffset.set (PageList.head.set m (getLocalPageListAddr 0)
        (ListNode.nextOffset.get m (x + 4096))) (x + 4096) offsetNull := by
    unfold Atfs.cutGlobal
    simp only [hbase, hwalk]
  rw [hcut, header_get_set_node h.index.2 hx, header_get_set_header h.index_ne]
  refine h.local_.chain.congr fun y hy => ?_
  have hpage : IsPage y := h.isPage (by simp [hy])
  have hxy : y ≠ x := by
    rintro rfl
    have hnodup := h.nodup
    simp [List.nodup_append] at hnodup
    grind
  rw [hpage.pageLink_set hx (by decide), Function.update_of_ne hxy,
    pageLink_set_header (by decide) hpage]

/-- What a refill reads when the global list has the pages for it. -/
theorem RefillPre.fillVisits_eq (h : RefillPre m i xs x rest l c₀ c) :
    fillVisits m (getLocalPageListAddr i) fillLocalPageListMax = xs ++ [x] ++ spliceVisits l := by
  have hbase : getPageListBaseAddr = getLocalPageListAddr 0 := rfl
  have hlen : (xs ++ [x]).length = fillLocalPageListMax := by
    rw [List.length_append, List.length_singleton, h.block]
  have hlist : xs ++ x :: rest = (xs ++ [x]) ++ rest := by simp
  have hchain : chainFrom m (PageList.head.get m getPageListBaseAddr) fillLocalPageListMax =
      xs ++ [x] := by
    rw [hbase, chainFrom_take h.global.chain (by rw [hlist, List.length_append]; omega), hlist,
      List.take_left' hlen]
  rw [fillVisits, hchain, headVisits_eq h.cutGlobal fun q hq => h.isPage (by simp [hq])]

namespace ListPair

theorem refillPre (h : ListPair m i G l offsetNull c₀ c) (hi : 1 ≤ i ∧ i ≤ gCpuNums)
    (hG : fillLocalPageListMax ≤ G.length) :
    ∃ xs x rest, RefillPre m i xs x rest l c₀ c ∧ G = xs ++ x :: rest := by
  obtain ⟨xs, x, rest, rfl, hxs⟩ := exists_block hG
  exact ⟨xs, x, rest, ⟨hi, hxs, h.global, h.local_, h.page, h.nodup⟩, rfl⟩

/-- A refill with the pages it takes reads nothing but pages, unless the local list has one. -/
theorem fillVisits_page (h : ListPair m i G l offsetNull c₀ c) (hi : 1 ≤ i ∧ i ≤ gCpuNums)
    (hG : fillLocalPageListMax ≤ G.length) (hone : l.length ≠ 1) :
    ∀ p ∈ fillVisits m (getLocalPageListAddr i) fillLocalPageListMax, p ≠ offsetNull := by
  obtain ⟨xs, x, rest, hpre, rfl⟩ := h.refillPre hi hG
  intro p hp
  rw [hpre.fillVisits_eq, List.mem_append] at hp
  refine (h.isPage (p := p) ?_).ne_offsetNull
  rcases hp with hp | hp
  · simp only [List.mem_append, List.mem_cons, List.not_mem_nil, or_false] at hp ⊢
    grind
  · exact List.mem_append_right _ (mem_of_mem_spliceVisits hone hp)

/-- Any other refill follows `OFFSET_NULL`. -/
theorem offsetNull_mem_fillVisits (h : ListPair m i G l offsetNull c₀ c)
    (hi : 1 ≤ i ∧ i ≤ gCpuNums) (hbad : G.length < fillLocalPageListMax ∨ l.length = 1) :
    offsetNull ∈ fillVisits m (getLocalPageListAddr i) fillLocalPageListMax := by
  by_cases hG : G.length < fillLocalPageListMax
  · have hbase : getPageListBaseAddr = getLocalPageListAddr 0 := rfl
    have hwalk := offsetNull_mem_chainFrom h.global.chain hG
    rw [fillVisits, hbase]
    exact List.mem_append_left _ hwalk
  · obtain ⟨xs, x, rest, hpre, rfl⟩ := h.refillPre hi (not_lt.1 hG)
    obtain ⟨y, rfl⟩ := List.length_eq_one_iff.1 (hbad.resolve_left hG)
    rw [hpre.fillVisits_eq, spliceVisits]
    simp

/-- A refill that follows pages only leaves two lists again. -/
theorem fill_next (h : ListPair m i G l offsetNull G.length l.length) (hi : 1 ≤ i ∧ i ≤ gCpuNums)
    (hG : fillLocalPageListMax ≤ G.length) (hone : l.length ≠ 1) :
    ∃ G' l', ListPair (fillLocalPageList m (getLocalPageListAddr i) fillLocalPageListMax) i G' l'
        offsetNull G'.length l'.length ∧ G'.length + fillLocalPageListMax = G.length ∧
      l'.length = l.length + fillLocalPageListMax := by
  obtain ⟨G', l', c₀', hpair, hlenG, hlen, -, -, hcount₀⟩ := h.fill hi le_rfl hG rfl
  rw [hcount₀ rfl, ← hlen, refilledEnd, if_neg hone] at hpair
  exact ⟨G', l', hpair, hlenG, hlen⟩

/-- The refill loop follows pages only as long as the global list has the pages. -/
theorem refillVisits_page (h : ListPair m i G l offsetNull G.length l.length)
    (hi : 1 ≤ i ∧ i ≤ gCpuNums) (hn : 1 ≤ n) (k fuel : Nat)
    (hk : n ≤ l.length + fillLocalPageListMax * k) (hG : fillLocalPageListMax * k ≤ G.length)
    (hone : l.length = 1 → n = 1) :
    (∀ p ∈ refillVisits (getLocalPageListAddr i) n fuel m, p ≠ offsetNull) ∧
      ∀ c ∈ refillCounts (getLocalPageListAddr i) n fuel m, fillLocalPageListMax ≤ c := by
  induction k generalizing m G l fuel with
  | zero =>
    cases fuel with
    | zero => exact ⟨fun p hp => absurd hp List.not_mem_nil, fun c hc => absurd hc List.not_mem_nil⟩
    | succ fuel =>
      unfold refillVisits refillCounts
      simp only [h.local_.count]
      rw [if_neg (by omega), if_neg (by omega)]
      exact ⟨fun p hp => absurd hp List.not_mem_nil, fun c hc => absurd hc List.not_mem_nil⟩
  | succ k ih =>
    cases fuel with
    | zero => exact ⟨fun p hp => absurd hp List.not_mem_nil, fun c hc => absurd hc List.not_mem_nil⟩
    | succ fuel =>
      unfold refillVisits refillCounts
      simp only [h.local_.count]
      by_cases hcn : l.length = 0 ∨ l.length < n
      · have hG' : fillLocalPageListMax ≤ G.length := by
          rw [fillLocalPageListMax] at *
          omega
        have hone' : l.length ≠ 1 := by omega
        obtain ⟨G', l', hpair, hlenG, hlen⟩ := h.fill_next hi hG' hone'
        obtain ⟨hvisits, hcounts⟩ := ih hpair fuel (by rw [fillLocalPageListMax] at *; omega)
          (by rw [fillLocalPageListMax] at *; omega) (by rw [fillLocalPageListMax] at *; omega)
        rw [if_pos hcn, if_pos hcn]
        constructor
        · intro p hp
          rcases List.mem_append.1 hp with hp | hp
          · exact h.fillVisits_page hi hG' hone' p hp
          · exact hvisits p hp
        · intro c hc
          rcases List.mem_cons.1 hc with rfl | hc
          · exact hG'.trans h.global.count.ge
          · exact hcounts c hc
      · rw [if_neg hcn, if_neg hcn]
        exact ⟨fun p hp => absurd hp List.not_mem_nil, fun c hc => absurd hc List.not_mem_nil⟩

/-- Where the global list runs out, or a list of a single page is refilled, the refill loop follows
`OFFSET_NULL`. -/
theorem offsetNull_mem_refillVisits (h : ListPair m i G l offsetNull G.length l.length)
    (hi : 1 ≤ i ∧ i ≤ gCpuNums) (fuel : Nat) (hn : l.length < n)
    (hfuel : n ≤ l.length + fillLocalPageListMax * fuel)
    (hbad : l.length = 1 ∨
      ∀ k, fillLocalPageListMax * k ≤ G.length → l.length + fillLocalPageListMax * k < n) :
    offsetNull ∈ refillVisits (getLocalPageListAddr i) n fuel m := by
  induction fuel generalizing m G l with
  | zero => omega
  | succ fuel ih =>
    unfold refillVisits
    simp only [h.local_.count]
    rw [if_pos (.inr hn), List.mem_append]
    by_cases hstop : G.length < fillLocalPageListMax ∨ l.length = 1
    · exact .inl (h.offsetNull_mem_fillVisits hi hstop)
    · obtain ⟨hG, hone⟩ := not_or.1 hstop
      obtain ⟨G', l', hpair, hlenG, hlen⟩ := h.fill_next hi (not_lt.1 hG) hone
      have hshort (k : Nat) (hk : fillLocalPageListMax * k ≤ G'.length) :
          l'.length + fillLocalPageListMax * k < n := by
        have := hbad.resolve_left hone (k + 1) (by rw [Nat.mul_succ]; omega)
        rw [Nat.mul_succ] at this
        omega
      refine .inr (ih hpair ?_ ?_ (.inr hshort))
      · have := hshort 0 (Nat.zero_le _)
        omega
      · rw [Nat.mul_succ] at hfuel
        omega

end ListPair

end Refills

/-! ## Whole requests -/

section Request

variable {m : Memory} {lists : Nat → List Nat} {currentCpu n base : Nat}

theorem refillsFor_spec (c n : Nat) : n ≤ c + fillLocalPageListMax * refillsFor c n := by
  unfold refillsFor
  rw [fillLocalPageListMax]
  omega

theorem refillsFor_le {c n k : Nat} (h : n ≤ c + fillLocalPageListMax * k) :
    refillsFor c n ≤ k := by
  unfold refillsFor
  rw [fillLocalPageListMax] at *
  omega

/-- A request the lists have enough for is served, and follows pages only. -/
theorem WellFormed.graceful (h : WellFormed m lists)
    (henough : Enough lists (localIndex currentCpu) n) (hn' : n < 2 ^ 32) :
    Graceful base m lists currentCpu n := by
  obtain ⟨hn, hone, hG⟩ := henough
  have hi := localIndex_bounds currentCpu
  have hspec := refillsFor_spec (lists (localIndex currentCpu)).length n
  have hle : refillsFor (lists (localIndex currentCpu)).length n ≤ n + 1 :=
    refillsFor_le (by rw [fillLocalPageListMax]; omega)
  generalize refillsFor (lists (localIndex currentCpu)).length n = k at *
  have hpair := h.listPair hi
  obtain ⟨m₁, G', R, hrefill, hpair₁, hnR, -, -⟩ := hpair.refillAll hi hn k (n + 2) hspec
    (by omega) hG (by omega)
  obtain ⟨hvisits, hcounts⟩ := hpair.refillVisits_page hi hn k (n + 2) hspec hG hone
  obtain ⟨p, pages, m', lists', htaken⟩ := h.taken hn k hle hspec hG (by omega)
  refine ⟨fun p hp => ?_, hcounts, fun _ _ => htaken.exact, fun hfew => ?_⟩
  · unfold allocVisits at hp
    simp only [hrefill] at hp
    rcases List.mem_append.1 hp with hp | hp
    · exact hvisits p hp
    · rw [decU32_of_pos hn (by omega), Nat.sub_add_cancel hn,
        chainFrom_take hpair₁.local_.chain hnR] at hp
      exact (hpair₁.isPage (List.mem_append_right _ (List.mem_of_mem_take hp))).ne_offsetNull
  · -- the pages are there, so nothing is refused
    omega

theorem WellFormed.length_lt (h : WellFormed m lists) {i : Nat} (hi : i ≤ gCpuNums) :
    (lists i).length < 2 ^ 32 := by
  have hle := IsPage.length_le (fun p hp => (h.page i hi p hp).1) (h.nodup i hi)
  rw [nvmFreeNumPages_eq] at hle
  omega

/-- A request of no pages makes the walk wrap, and so run over the end of the list. -/
theorem WellFormed.offsetNull_mem_zero (h : WellFormed m lists) (currentCpu : Nat) :
    offsetNull ∈ allocVisits m currentCpu 0 := by
  have hi := localIndex_bounds currentCpu
  have hpair := h.listPair hi
  have hwrap : decU32 0 + 1 = 2 ^ 32 := rfl
  unfold allocVisits
  rw [List.mem_append]
  by_cases hzero : (lists (localIndex currentCpu)).length = 0
  · by_cases hG : (lists 0).length < fillLocalPageListMax
    · -- the list is empty, and there is no block to refill it with
      left
      rw [Nat.zero_add, refillVisits]
      simp only [hpair.local_.count]
      rw [if_pos (.inl hzero), List.mem_append]
      exact .inl (hpair.offsetNull_mem_fillVisits hi (.inl hG))
    · right
      obtain ⟨G', l', hpair', -, hlen⟩ := hpair.fill_next hi (not_lt.1 hG) (by omega)
      have hrefill : refillLocalPageList (getLocalPageListAddr (localIndex currentCpu))
        0 (0 + 2) m =
          some (fillLocalPageList m (getLocalPageListAddr (localIndex currentCpu))
            fillLocalPageListMax) := by
        rw [refillLocalPageList]
        simp only [hpair.local_.count]
        rw [if_pos (.inl hzero), refillLocalPageList]
        simp only [hpair'.local_.count]
        rw [fillLocalPageListMax] at hlen
        rw [if_neg (by omega)]
      simp only [hrefill, hwrap]
      rw [fillLocalPageListMax] at hlen
      exact offsetNull_mem_chainFrom hpair'.local_.chain (by omega)
  · right
    have hrefill : refillLocalPageList (getLocalPageListAddr (localIndex currentCpu)) 0 (0 + 2) m =
        some m := by
      rw [refillLocalPageList]
      simp only [hpair.local_.count]
      rw [if_neg (by omega)]
    simp only [hrefill, hwrap]
    exact offsetNull_mem_chainFrom hpair.local_.chain (h.length_lt hi.2)

/-- A request the lists do not have enough for follows `OFFSET_NULL`. -/
theorem WellFormed.offsetNull_mem_allocVisits (h : WellFormed m lists)
    (hnot : ¬ Enough lists (localIndex currentCpu) n) :
    offsetNull ∈ allocVisits m currentCpu n := by
  have hi := localIndex_bounds currentCpu
  have hpair := h.listPair hi
  rcases Nat.eq_zero_or_pos n with rfl | hn
  · exact h.offsetNull_mem_zero currentCpu
  · have hshort : (lists (localIndex currentCpu)).length < n ∧
        ((lists (localIndex currentCpu)).length = 1 ∨
          ∀ k, fillLocalPageListMax * k ≤ (lists 0).length →
            (lists (localIndex currentCpu)).length + fillLocalPageListMax * k < n) := by
      by_cases hone : (lists (localIndex currentCpu)).length = 1 → n = 1
      · have hG : ¬ fillLocalPageListMax *
            refillsFor (lists (localIndex currentCpu)).length n ≤ (lists 0).length :=
          fun hG => hnot ⟨hn, hone, hG⟩
        have hall (k : Nat) (hk : fillLocalPageListMax * k ≤ (lists 0).length) :
            (lists (localIndex currentCpu)).length + fillLocalPageListMax * k < n := by
          by_contra hc
          exact hG ((Nat.mul_le_mul_left _ (refillsFor_le (not_lt.1 hc))).trans hk)
        exact ⟨by simpa using hall 0 (Nat.zero_le _), .inr hall⟩
      · omega
    unfold allocVisits
    refine List.mem_append_left _ (hpair.offsetNull_mem_refillVisits hi
      (n + 2) hshort.1 ?_ hshort.2)
    rw [fillLocalPageListMax]
    omega

/-- An allocation meets the limits of the lists without damage if and only if the lists have enough
for it. -/
theorem allocFreePages_graceful_iff (h : WellFormed m lists) (base currentCpu : Nat)
    (hn : n < 2 ^ 32) :
    Graceful base m lists currentCpu n ↔ Enough lists (localIndex currentCpu) n := by
  constructor
  · intro hgraceful
    by_contra hnot
    exact hgraceful.visits _ (h.offsetNull_mem_allocVisits hnot) rfl
  · exact fun henough => h.graceful henough hn

end Request

/-- One page off a list of two. -/
theorem allocFreePages_graceful_iff_sample :
    Graceful (2 ^ 20) (freeImage 2 2 fun _ _ => 0).mem (freeLists 2 2) 0 1 := by
  have hlen : (freeLists 2 2 (localIndex 0)).length = 2 := length_freeLists (by decide)
  refine (allocFreePages_graceful_iff (freeImage_wellFormed (by decide) (by decide)) _ 0
    (by decide)).2 ⟨le_rfl, fun _ => rfl, ?_⟩
  rw [hlen]
  exact Nat.zero_le _

/-- Three pages are asked for, two on the local and two on the global list. -/
theorem allocFreePages_not_graceful :
    WellFormed (freeImage 2 2 fun _ _ => 0).mem (freeLists 2 2) ∧
      (freeLists 2 2 (localIndex 0)).length = 2 ∧ (freeLists 2 2 0).length = 2 ∧
      offsetNull ∈ allocVisits (freeImage 2 2 fun _ _ => 0).mem 0 3 ∧
      ¬ Graceful (2 ^ 20) (freeImage 2 2 fun _ _ => 0).mem (freeLists 2 2) 0 3 := by
  have hwf : WellFormed (freeImage 2 2 fun _ _ => 0).mem (freeLists 2 2) :=
    freeImage_wellFormed (by decide) (by decide)
  have hlocal : (freeLists 2 2 (localIndex 0)).length = 2 := length_freeLists (by decide)
  have hglobal : (freeLists 2 2 0).length = 2 := by rw [freeLists_zero, length_pageRun]
  have hvisit : offsetNull ∈ allocVisits (freeImage 2 2 fun _ _ => 0).mem 0 3 := by
    refine hwf.offsetNull_mem_allocVisits fun henough => ?_
    have hG := henough.2.2
    rw [hlocal, hglobal] at hG
    exact absurd hG (by decide)
  exact ⟨hwf, hlocal, hglobal, hvisit, fun hgraceful => hgraceful.visits _ hvisit rfl⟩

end Atfs
