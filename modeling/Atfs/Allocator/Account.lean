import Atfs.Allocator.Release

/-!
# Accounting for pages

The counts of the lists against their chains, over runs of `alloc_free_pages` and `free_pages`.
An allocation takes as many pages off a list as it takes off its count. `free_pages` puts
pages on a list and leaves its count alone, so the first release ends the agreement.
-/

namespace Atfs

open ByteMemory LinkedChain

/-! ## Runs of calls -/

/-- The allocator, with the chains it has handed out and not taken back. -/
structure Pool where
  mem : Memory
  currentCpu : Nat
  inUse : List (List Nat)

inductive PageCall
  | alloc (pageNum : Nat)
  /-- Release one of the chains in use, all of it, as it was handed out. -/
  | free (chain : Nat)

def PageCall.isFree : PageCall → Bool
  | .alloc _ => false
  | .free _ => true

/-- The `n` pages of the chain that starts at `p`. -/
def chainFrom (m : Memory) (p n : Nat) : List Nat := (List.range n).map fun k => (pageLink m)^[k] p

namespace Pool

def step (s : Pool) : PageCall → Option Pool
  | .alloc pageNum => do
    let (node, m, currentCpu) ← allocFreePages s.mem s.currentCpu pageNum
    some ⟨m, currentCpu, chainFrom m (getNvmNode2pageAddr node) pageNum :: s.inUse⟩
  | .free k => do
    let chain ← s.inUse[k]?
    let (m, currentCpu) := freePages s.mem s.currentCpu
      (getNvmPageNodeAddr (chain.headD offsetNull)) chain.length
    some ⟨m, currentCpu, s.inUse.eraseIdx k⟩

def run : Pool → List PageCall → Option Pool
  | s, [] => some s
  | s, c :: cs => do
    let s ← s.step c
    run s cs

/-- The sum of the counts of all lists. -/
def counted (s : Pool) : Nat :=
  ((List.range (gCpuNums + 1)).map fun i => PageList.count.get s.mem (getLocalPageListAddr i)).sum

/-- The number of pages in use. -/
def used (s : Pool) : Nat := (s.inUse.map List.length).sum

/-- The count of the list that serves the next call. -/
def localCount (s : Pool) : Nat :=
  PageList.count.get s.mem (getLocalPageListAddr (localIndex s.currentCpu))

/-- How often a request of `n` pages refills the list. -/
def refills (s : Pool) (n : Nat) : Nat :=
  (n - s.localCount + (fillLocalPageListMax - 1)) / fillLocalPageListMax

/-- The index of the list that takes the pages of the next release. -/
def freeIndex (s : Pool) : Nat := releaseIndex s.mem s.currentCpu

/-- A call the allocator is made for: a request it has the pages for that refills no list of a
single page, or a release of pages in use that finds a list that is not empty. -/
def Fits (s : Pool) : PageCall → Prop
  | .alloc n => 1 ≤ n ∧
    fillLocalPageListMax * s.refills n ≤ PageList.count.get s.mem (getLocalPageListAddr 0) ∧
    (s.localCount = 1 → n = 1 ∨ nullNodeOffset s.mem = offsetNull)
  | .free k => k < s.inUse.length ∧
    PageList.head.get s.mem (getLocalPageListAddr s.freeIndex) ≠ offsetNull

/-- Every call of a run fits the state it is made in. -/
def FitsRun : Pool → List PageCall → Prop
  | _, [] => True
  | s, c :: cs => s.Fits c ∧ ∀ s', s.step c = some s' → FitsRun s' cs

/-- Each count is the length of its chain, and the pages add up to as many as there are in `s₀`. -/
structure Accounted (s₀ s : Pool) : Prop where
  count : ∀ i ≤ gCpuNums, ∃ l, offsetNull ∉ l ∧ ListRep s.mem i l offsetNull l.length
  total : s.counted + s.used = s₀.counted + s₀.used

end Pool

/-- The lists hold the pages `lists`, and each of the chains in use is a chain of pages that are
on no list. -/
structure Pool.Sound (s : Pool) (lists : Nat → List Nat) : Prop where
  wellFormed : WellFormed s.mem lists
  chain : ∀ l ∈ s.inUse, l ≠ [] ∧ Segment (pageLink s.mem) (l.headD offsetNull) l offsetNull
  page : ∀ l ∈ s.inUse, ∀ q ∈ l, IsPage q ∧ q ∉ freeOf lists

/-! ## Counting -/

section Counting

variable {m m' : Memory} {lists lists' : Nat → List Nat}

/-- The pages of all lists. -/
def allPages (lists : Nat → List Nat) : List Nat := (List.range (gCpuNums + 1)).flatMap lists

theorem mem_allPages {q : Nat} : q ∈ allPages lists ↔ q ∈ freeOf lists := by
  rw [allPages, List.mem_flatMap]
  refine exists_congr fun i => ?_
  rw [List.mem_range, Nat.lt_succ_iff]

theorem WellFormed.nodup_allPages (h : WellFormed m lists) : (allPages lists).Nodup := by
  rw [allPages, List.nodup_flatMap]
  refine ⟨fun i hi => h.nodup i (Nat.lt_succ_iff.1 (List.mem_range.1 hi)), ?_⟩
  refine List.Nodup.pairwise_of_forall_ne List.nodup_range fun i hi j hj hij => ?_
  exact h.disjoint i (Nat.lt_succ_iff.1 (List.mem_range.1 hi)) j
    (Nat.lt_succ_iff.1 (List.mem_range.1 hj)) hij

/-- In a well-formed state the counts count the pages. -/
theorem WellFormed.counted {s : Pool} (h : WellFormed s.mem lists) :
    s.counted = (allPages lists).length := by
  rw [Pool.counted, allPages, List.length_flatMap]
  refine congrArg List.sum (List.map_congr_left fun i hi => ?_)
  exact (h.rep i (Nat.lt_succ_iff.1 (List.mem_range.1 hi))).count

theorem WellFormed.head_ne_offsetNull (h : WellFormed m lists) {i : Nat} (hi : i ≤ gCpuNums)
    (hne : lists i ≠ []) : PageList.head.get m (getLocalPageListAddr i) ≠ offsetNull := by
  obtain ⟨x, rest, hx⟩ := List.exists_cons_of_ne_nil hne
  have hchain := (h.rep i hi).chain
  rw [hx] at hchain
  rw [hchain.head_eq]
  exact (h.page i hi x (hx ▸ List.mem_cons_self)).1.ne_offsetNull

/-- What an allocation takes off the lists. -/
theorem Taken.length_allPages {currentCpu n p : Nat} {pages : List Nat} (h : WellFormed m lists)
    (ht : Taken m lists currentCpu n p pages m' lists') :
    (allPages lists').length + n = (allPages lists).length := by
  rw [← ht.length, ← List.length_append]
  refine List.Perm.length_eq ((List.perm_ext_iff_of_nodup ?_ h.nodup_allPages).2 fun q => ?_)
  · refine ht.wellFormed.nodup_allPages.append ht.nodup fun q hq hq' => ?_
    rw [mem_allPages, ht.rest] at hq
    exact hq.2 hq'
  · rw [List.mem_append, mem_allPages, mem_allPages, ht.rest]
    constructor
    · rintro (hq | hq)
      · exact hq.1
      · exact ht.fresh q hq
    · intro hq
      by_cases hc : q ∈ pages
      · exact .inr hc
      · exact .inl ⟨hq, hc⟩

end Counting

/-! ## Allocations -/

section Alloc

variable {s s' : Pool} {lists : Nat → List Nat} {n : Nat}

theorem chainFrom_eq {m : Memory} {p : Nat} {l : List Nat}
    (h : Segment (pageLink m) p l offsetNull) :
    chainFrom m p l.length = l := by
  refine List.ext_getElem (by simp [chainFrom]) fun k h₁ h₂ => ?_
  simp only [chainFrom, List.getElem_map, List.getElem_range]
  exact h.iterate h₂

/-- An allocation that fits is exact, and its pages are accounted for. -/
theorem Pool.Sound.alloc (h : s.Sound lists) (hfit : s.Fits (.alloc n)) :
    ∃ s' lists', s.step (.alloc n) = some s' ∧ s'.Sound lists' ∧
      s'.counted + s'.used = s.counted + s.used := by
  obtain ⟨hn, hG, hend⟩ := hfit
  have hi := localIndex_bounds s.currentCpu
  have hcount : s.localCount = (lists (localIndex s.currentCpu)).length :=
    (h.wellFormed.rep _ hi.2).count
  have hglobal := (h.wellFormed.rep 0 (Nat.zero_le _)).count
  rw [hcount] at hend
  have hk : n ≤ (lists (localIndex s.currentCpu)).length + fillLocalPageListMax * s.refills n ∧
      s.refills n ≤ n + 1 := by
    rw [Pool.refills, hcount, show fillLocalPageListMax = 512 from rfl]
    omega
  obtain ⟨p, pages, m', lists', ht⟩ : ∃ p pages m' lists',
      Taken s.mem lists s.currentCpu n p pages m' lists' :=
    h.wellFormed.taken hn (s.refills n) hk.2 hk.1 (hglobal ▸ hG) (by omega)
  have hlen := ht.length
  have hp : IsPage p := by
    obtain ⟨q, rest, rfl⟩ := List.exists_cons_of_length_pos (l := pages) (by omega)
    obtain ⟨i, hi, hq⟩ := ht.fresh q (by simp)
    rw [ht.chain.head_eq]
    exact (h.wellFormed.page i hi q hq).1
  have hnew : chainFrom m' (getNvmNode2pageAddr (getNvmPageNodeAddr p)) n = pages := by
    rw [hp.getNvmPageNodeAddr_eq, hp.getNvmNode2pageAddr_eq, ← hlen]
    exact chainFrom_eq ht.chain
  refine ⟨⟨m', (getCpuid s.currentCpu).2, pages :: s.inUse⟩, lists', ?_,
    ⟨ht.wellFormed, ?_, ?_⟩, ?_⟩
  · rw [Pool.step, ht.alloc]
    simp only [Option.bind_eq_bind, Option.bind_some, hnew]
  · intro l hl
    rcases List.mem_cons.1 hl with rfl | hl
    · refine ⟨fun hc => ?_, ?_⟩
      · rw [hc, List.length_nil] at hlen
        omega
      · obtain ⟨q, rest, rfl⟩ := List.exists_cons_of_length_pos (l := l) (by omega)
        obtain rfl := ht.chain.head_eq
        exact ht.chain
    · obtain ⟨hne, hchain⟩ := h.chain l hl
      refine ⟨hne, hchain.congr fun q hq => ?_⟩
      obtain ⟨hq', hqF⟩ := h.page l hl q hq
      refine (pageLink_of_eqOn ht.frame hi.2 (fun r hr => (h.wellFormed.listPair hi).isPage hr) hq'
        fun hc => hqF ?_).symm
      rcases List.mem_append.1 hc with hc | hc
      · exact ⟨0, Nat.zero_le _, hc⟩
      · exact ⟨_, hi.2, hc⟩
  · intro l hl q hq
    rcases List.mem_cons.1 hl with rfl | hl
    · obtain ⟨i, hi, hqi⟩ := ht.fresh q hq
      refine ⟨(h.wellFormed.page i hi q hqi).1, fun hc => ?_⟩
      rw [ht.rest] at hc
      exact hc.2 hq
    · obtain ⟨hq', hqF⟩ := h.page l hl q hq
      refine ⟨hq', fun hc => hqF ?_⟩
      rw [ht.rest] at hc
      exact hc.1
  · have htotal := ht.length_allPages h.wellFormed
    have hcounted : Pool.counted ⟨m', (getCpuid s.currentCpu).2, pages :: s.inUse⟩ =
        (allPages lists').length := ht.wellFormed.counted
    rw [hcounted, h.wellFormed.counted, Pool.used, Pool.used, List.map_cons, List.sum_cons]
    omega

end Alloc

/-! ## Releases -/

section Free

variable {s s' : Pool} {lists : Nat → List Nat}

/-- `free_pages` puts its chain behind the head of the list and leaves the count alone. -/
theorem Pool.Sound.free {k : Nat} (h : s.Sound lists) (hfit : s.Fits (.free k))
    (hstep : s.step (.free k) = some s') :
    ∃ l x rest, l ≠ [] ∧ lists s.freeIndex = x :: rest ∧
      (∀ q ∈ x :: l ++ rest, IsPage q) ∧
      Segment (pageLink s'.mem) (PageList.head.get s'.mem (getLocalPageListAddr s.freeIndex))
        (x :: l ++ rest) offsetNull ∧
      ∀ i ≤ gCpuNums, PageList.count.get s'.mem (getLocalPageListAddr i) = (lists i).length := by
  have hi : s.freeIndex ≤ gCpuNums := releaseIndex_le _ _
  have hchain := (h.wellFormed.rep _ hi).chain
  -- the list is not empty, so there is a head to put the chain behind
  obtain ⟨x, rest, hx⟩ : ∃ x rest, lists s.freeIndex = x :: rest := by
    cases hl : lists s.freeIndex with
    | nil =>
      rw [hl] at hchain
      exact absurd (segment_nil.1 hchain) hfit.2
    | cons x rest => exact ⟨x, rest, rfl⟩
  rw [hx] at hchain
  have hhead := hchain.head_eq
  have hxmem : x ∈ lists s.freeIndex := hx ▸ List.mem_cons_self
  have hxp := (h.wellFormed.page _ hi x hxmem).1
  obtain ⟨l, hl, hstep⟩ : ∃ l, s.inUse[k]? = some l ∧ _ := Option.bind_eq_some_iff.1 hstep
  obtain ⟨hne, hseg⟩ := h.chain l (List.mem_of_getElem? hl)
  have hpage := h.page l (List.mem_of_getElem? hl)
  obtain ⟨ys, y, rfl⟩ : ∃ ys y, l = ys ++ [y] := ⟨_, _, (List.dropLast_append_getLast hne).symm⟩
  generalize (ys ++ [y]).headD offsetNull = p at *
  have hpages : ∀ q ∈ ys ++ [y], IsPage q := fun q hq => (hpage q hq).1
  have hp : IsPage p := by
    cases ys with
    | nil => exact hseg.head_eq ▸ hpages y (by simp)
    | cons z zs => exact (Segment.head_eq hseg) ▸ hpages z (by simp)
  have hy := hpages y (by simp)
  rw [hp.getNvmPageNodeAddr_eq, freePages_eq hseg hpages hxp hhead] at hstep
  obtain rfl := Option.some.inj hstep
  have hfree : ∀ q ∈ ys ++ [y], q ∉ x :: rest := fun q hq hc =>
    (hpage q hq).2 ⟨_, hi, hx ▸ hc⟩
  have hnode (j : Nat) (hj : j ≤ gCpuNums) (g : Field 56) :
      g.get (linkedBehind s.mem x p y) (getLocalPageListAddr j) =
        g.get s.mem (getLocalPageListAddr j) := by
    unfold linkedBehind
    rw [header_get_set_node hj hy, header_get_set_node hj hxp]
  refine ⟨ys ++ [y], x, rest, hne, hx, fun q hq => ?_, ?_, fun i hi => ?_⟩
  · rw [List.cons_append, List.mem_cons, List.mem_append] at hq
    rcases hq with rfl | hq | hq
    · exact hxp
    · exact hpages q hq
    · exact (h.wellFormed.page _ hi q (hx ▸ List.mem_cons_of_mem _ hq)).1
  · simp only [hnode _ hi]
    rw [hhead] at hchain ⊢
    refine segment_linkedBehind hchain hseg (fun q hq => ?_) ?_
    · rw [List.cons_append, List.mem_cons, List.mem_append] at hq
      rcases hq with rfl | hq | hq
      · exact hxp
      · exact hpages q hq
      · exact (h.wellFormed.page _ hi q (hx ▸ List.mem_cons_of_mem _ hq)).1
    · have hlist := h.wellFormed.nodup _ hi
      have hnull : offsetNull ∉ ys ++ [y] := fun hc => (hpages _ hc).ne_offsetNull rfl
      have hnew := hseg.nodup hnull
      rw [hx, List.nodup_cons] at hlist
      rw [List.cons_append, List.nodup_cons, List.nodup_append']
      refine ⟨fun hc => ?_, hnew, hlist.2, fun q hq hq' => hfree q hq (List.mem_cons_of_mem _ hq')⟩
      rcases List.mem_append.1 hc with hc | hc
      · exact hfree x hc List.mem_cons_self
      · exact hlist.1 hc
  · simp only [hnode i hi]
    exact (h.wellFormed.rep i hi).count

end Free

/-! ## Whole runs -/

section Run

variable {s₀ s s' : Pool} {lists : Nat → List Nat} {cs : List PageCall}

theorem Pool.Sound.accounted (h : s.Sound lists)
    (htotal : s.counted + s.used = s₀.counted + s₀.used) : s₀.Accounted s where
  count i hi := ⟨lists i,
    fun hc => (h.wellFormed.page i hi _ hc).1.ne_offsetNull rfl, h.wellFormed.rep i hi⟩
  total := htotal

/-- After a release the count of a list is less than the length of its chain. -/
theorem Pool.Sound.not_accounted {k : Nat} (h : s.Sound lists) (hfit : s.Fits (.free k))
    (hstep : s.step (.free k) = some s') : ¬ s₀.Accounted s' := by
  intro hacc
  obtain ⟨l, x, rest, hne, hlists, hpage, hchain, hcount⟩ := h.free hfit hstep
  have hi : s.freeIndex ≤ gCpuNums := releaseIndex_le _ _
  obtain ⟨l', hnull, hrep⟩ := hacc.count _ hi
  obtain rfl := hchain.unique_of_end hrep.chain (fun hc => (hpage _ hc).ne_offsetNull rfl) hnull
  have hlen := (hcount _ hi).symm.trans hrep.count
  have hpos := List.length_pos_of_ne_nil hne
  rw [hlists, List.length_append, List.length_cons, List.length_cons] at hlen
  omega

/-- In a run of allocations that fit every state is accounted for. -/
theorem Pool.Sound.run (h : s.Sound lists) (hfit : s.FitsRun cs)
    (hall : ∀ c ∈ cs, c.isFree = false) :
    ∃ s' lists', s.run cs = some s' ∧ s'.Sound lists' ∧
      s'.counted + s'.used = s.counted + s.used := by
  induction cs generalizing s lists with
  | nil => exact ⟨s, lists, rfl, h, rfl⟩
  | cons c cs ih =>
    cases c with
    | free k => exact absurd (hall _ List.mem_cons_self) (by simp [PageCall.isFree])
    | alloc n =>
      obtain ⟨t, lists', hstep, ht, htotal⟩ := h.alloc hfit.1
      obtain ⟨s', lists'', hrun, hs', htotal'⟩ :=
        ih ht (hfit.2 t hstep) fun c hc => hall c (List.mem_cons_of_mem _ hc)
      refine ⟨s', lists'', ?_, hs', htotal'.trans htotal⟩
      rw [Pool.run, hstep]
      exact hrun

theorem Pool.FitsRun.take (h : s.FitsRun cs) (k : Nat) : s.FitsRun (cs.take k) := by
  induction cs generalizing s k with
  | nil =>
    rw [List.take_nil]
    trivial
  | cons c cs ih =>
    cases k with
    | zero => trivial
    | succ k => exact ⟨h.1, fun s' hs' => ih (h.2 s' hs') k⟩

/-- Up to the first release the state is sound; the release itself breaks the accounts. -/
theorem Pool.Sound.isFree_eq_false (h : s.Sound lists) (hfit : s.FitsRun cs)
    (hacc : ∀ k, ∃ t, s.run (cs.take k) = some t ∧ s₀.Accounted t) :
    ∀ c ∈ cs, c.isFree = false := by
  induction cs generalizing s lists with
  | nil => exact fun c hc => absurd hc List.not_mem_nil
  | cons c cs ih =>
    cases c with
    | free k =>
      obtain ⟨t, hrun, ht⟩ := hacc 1
      obtain ⟨s', hstep, hrun⟩ := Option.bind_eq_some_iff.1 hrun
      obtain rfl := Option.some.inj hrun
      exact absurd ht (h.not_accounted hfit.1 hstep)
    | alloc n =>
      obtain ⟨s', lists', hstep, hs', -⟩ := h.alloc hfit.1
      have hrest := ih hs' (hfit.2 s' hstep) fun k => by
        obtain ⟨t, hrun, ht⟩ := hacc (k + 1)
        rw [List.take_succ_cons, Pool.run, hstep] at hrun
        exact ⟨t, hrun, ht⟩
      intro c hc
      rcases List.mem_cons.1 hc with rfl | hc
      · rfl
      · exact hrest c hc

/-- The counts of the lists and the pages in use stay accounted for exactly as long as no page
is released. -/
theorem pagesAccounted_iff (h : s.Sound lists) (hfit : s.FitsRun cs) :
    (∀ k, ∃ t, s.run (cs.take k) = some t ∧ s.Accounted t) ↔ ∀ c ∈ cs, c.isFree = false := by
  constructor
  · exact h.isFree_eq_false hfit
  · intro hall k
    obtain ⟨t, lists', hrun, ht, htotal⟩ :=
      h.run (hfit.take k) fun c hc => hall c (List.mem_of_mem_take hc)
    exact ⟨t, hrun, ht.accounted htotal⟩

/-- A fresh allocator with two pages on every list and none in use. -/
def twoPages : Pool := ⟨(freeImage 2 2 fun _ _ => 0).mem, 0, []⟩

theorem twoPages_sound : twoPages.Sound (freeLists 2 2) where
  wellFormed := freeImage_wellFormed (by decide) (by decide)
  chain l hl := absurd hl List.not_mem_nil
  page l hl := absurd hl List.not_mem_nil

theorem twoPages_fits : twoPages.Fits (.alloc 1) := by
  have hcount : twoPages.localCount = 2 :=
    (twoPages_sound.wellFormed.rep _ (localIndex_bounds 0).2).count.trans
      (length_freeLists (by decide))
  refine ⟨le_rfl, ?_, fun h => ?_⟩
  · rw [Pool.refills, hcount]
    exact Nat.zero_le _
  · omega

theorem pagesAccounted_iff_one :
    ∃ t, twoPages.run [.alloc 1] = some t ∧ twoPages.Accounted t := by
  have hfit : twoPages.FitsRun [.alloc 1] := ⟨twoPages_fits, fun _ _ => trivial⟩
  exact (pagesAccounted_iff twoPages_sound hfit).2 (by simp [PageCall.isFree]) 1

/-- After the allocation of one page every list still has a page. -/
theorem twoPages_alloc : ∃ t lists, twoPages.step (.alloc 1) = some t ∧ t.Sound lists ∧
    t.inUse.length = 1 ∧
    ∀ i ≤ gCpuNums, PageList.head.get t.mem (getLocalPageListAddr i) ≠ offsetNull := by
  have hlen {i : Nat} : (freeLists 2 2 i).length = 2 := by
    by_cases h : i = 0
    · rw [h, freeLists_zero, length_pageRun]
    · exact length_freeLists h
  obtain ⟨node, m', cpu', halloc, hwf⟩ :
      ∃ node m' cpu',
        allocFreePages twoPages.mem twoPages.currentCpu 1 = some (node, m', cpu') ∧ _ :=
    twoPages_sound.wellFormed.takeLocal le_rfl (by rw [hlen]; decide)
  obtain ⟨t, lists, hstep, ht, -⟩ := twoPages_sound.alloc twoPages_fits
  refine ⟨t, lists, hstep, ht, ?_⟩
  obtain rfl : ⟨m', cpu', [chainFrom m' (getNvmNode2pageAddr node) 1]⟩ = t := by
    rw [Pool.step, halloc] at hstep
    exact Option.some.inj hstep
  refine ⟨rfl, fun i hi => hwf.head_ne_offsetNull hi fun hnil => ?_⟩
  have hzero := congrArg List.length hnil
  rw [Function.update_eq_self] at hzero
  by_cases h : i = localIndex twoPages.currentCpu
  · rw [h, Function.update_self, List.length_drop, hlen] at hzero
    exact absurd hzero (by decide)
  · rw [Function.update_of_ne h, hlen] at hzero
    exact absurd hzero (by decide)

/-- One page is allocated and released again: the page is on a list and in no count. -/
theorem freePages_not_accounted :
    ∃ t, twoPages.FitsRun [.alloc 1, .free 0] ∧ twoPages.run [.alloc 1, .free 0] = some t ∧
      ¬ twoPages.Accounted t := by
  obtain ⟨s, lists, halloc, hs, huse, hhead⟩ := twoPages_alloc
  have hfit : s.Fits (.free 0) := ⟨by omega, hhead _ (releaseIndex_le _ _)⟩
  obtain ⟨t, hfree⟩ : ∃ t, s.step (.free 0) = some t := by
    obtain ⟨l, hl⟩ := List.length_eq_one_iff.1 huse
    rw [Pool.step, hl]
    exact ⟨_, rfl⟩
  refine ⟨t, ⟨twoPages_fits, fun s' hs' => ?_⟩, ?_, hs.not_accounted hfit hfree⟩
  · obtain rfl := Option.some.inj (halloc.symm.trans hs')
    exact ⟨hfit, fun _ _ => trivial⟩
  · rw [Pool.run, halloc]
    change (s.step (.free 0)).bind _ = _
    rw [hfree]
    rfl

end Run

end Atfs
