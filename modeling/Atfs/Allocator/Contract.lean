import Atfs.Allocator.Alloc
import Atfs.State

/-!
# The repository's allocator as a page allocator

`pageAllocator` is `alloc_free_pages` and `free_pages`, taken where they keep the contract
that the code above relies on; elsewhere its `alloc` fails and its `free` drops the pages.
`keptAlloc_eq` says where nothing is cut off: in a well-formed state, unless a
list of a single page would be refilled.
-/

namespace Atfs

open ByteMemory LinkedChain

/-- The lists hold the pages `lists`, whatever their counts say. -/
structure Chains (m : Memory) (lists : Nat → List Nat) : Prop where
  chain : ∀ i ≤ gCpuNums,
    Segment (pageLink m) (PageList.head.get m (getLocalPageListAddr i)) (lists i) offsetNull
  page : ∀ i ≤ gCpuNums, ∀ p ∈ lists i, IsPage p

/-- The headers of the page lists. -/
def pageListBytes : Set Nat := Set.Ico 49152 52792

theorem pageListBytes_subset (B : Set Nat) : pageListBytes ∪ B ⊆ metadata ∪ B :=
  Set.union_subset_union_left _ fun a ha => by
    rw [pageListBytes, Set.mem_Ico] at ha
    rw [mem_metadata]
    omega

theorem header_congr {m m' : Memory} {B : Set Nat} (heq : Set.EqOn m' m (pageListBytes ∪ B))
    {i : Nat} (hi : i ≤ gCpuNums) (f : Field 56) :
    f.get m' (getLocalPageListAddr i) = f.get m (getLocalPageListAddr i) :=
  Field.get_congr fun a ha => heq (.inl (by
    have := f.fits
    rw [Field.bytes, getLocalPageListAddr_eq, Set.mem_Ico] at ha
    rw [gCpuNums] at hi
    rw [pageListBytes, Set.mem_Ico]
    omega))

/-- What the lists look at in the node of a page: its link and its offset. -/
def nodeWords (p : Nat) : Set Nat := Set.Ico (p + 4096) (p + 4112)

theorem nodeWords_subset (p : Nat) : nodeWords p ⊆ pageBytes p := fun a ha => by
  rw [nodeWords, Set.mem_Ico] at ha
  rw [mem_pageBytes]
  omega

/-- The lists are decided by their headers and the nodes of their pages. -/
theorem Chains.congr_nodes {m m' : Memory} {lists : Nat → List Nat} (h : Chains m lists)
    (heq : Set.EqOn m' m pageListBytes) (hnode : ∀ p ∈ freeOf lists, Set.EqOn m' m (nodeWords p)) :
    Chains m' lists where
  chain := fun i hi => by
    rw [header_congr (B := ∅) (by rwa [Set.union_empty]) hi]
    refine (h.chain i hi).congr fun p hp => (h.page i hi p hp).pageLink_congr fun a ha => ?_
    refine (hnode p ⟨i, hi, hp⟩ ?_).symm
    rw [Set.mem_Ico] at ha
    rw [nodeWords, Set.mem_Ico]
    omega
  page := h.page

theorem Chains.congr {m m' : Memory} {lists : Nat → List Nat} (h : Chains m lists)
    (heq : Set.EqOn m' m (pageListBytes ∪ bytesOf (freeOf lists))) : Chains m' lists :=
  h.congr_nodes (heq.mono Set.subset_union_left) fun p hp _ ha =>
    heq (.inr ⟨p, hp, nodeWords_subset p ha⟩)

theorem Linked.chains {m : Memory} {lists : Nat → List Nat} {counts : Nat → Nat}
    (h : Linked m lists counts) : Chains m lists where
  chain := fun i hi => (h.rep i hi).chain
  page := fun i hi p hp => (h.page i hi p hp).1

theorem WellFormed.chains {m : Memory} {lists : Nat → List Nat} (h : WellFormed m lists) :
    Chains m lists :=
  h.linked.chains

theorem Linked.congr_nodes {m m' : Memory} {lists : Nat → List Nat} {counts : Nat → Nat}
    (h : Linked m lists counts) (heq : Set.EqOn m' m pageListBytes)
    (hnode : ∀ p ∈ freeOf lists, Set.EqOn m' m (nodeWords p)) : Linked m' lists counts where
  rep := fun i hi => by
    refine ⟨(h.chains.congr_nodes heq hnode).chain i hi, ?_⟩
    rw [header_congr (B := ∅) (by rwa [Set.union_empty]) hi]
    exact (h.rep i hi).count
  page := fun i hi p hp => by
    obtain ⟨hpage, hoff⟩ := h.page i hi p hp
    refine ⟨hpage, (Field.get_congr fun a ha => hnode p ⟨i, hi, hp⟩ ?_).trans hoff⟩
    rw [hpage.getNvmPageNodeAddr_eq, Field.bytes, ListNode.offset_off, ListNode.offset_size,
      Set.mem_Ico] at ha
    rw [nodeWords, Set.mem_Ico]
    omega
  nodup := h.nodup
  disjoint := h.disjoint

theorem WellFormed.congr_nodes {m m' : Memory} {lists : Nat → List Nat} (h : WellFormed m lists)
    (heq : Set.EqOn m' m pageListBytes) (hnode : ∀ p ∈ freeOf lists, Set.EqOn m' m (nodeWords p)) :
    WellFormed m' lists := by
  obtain ⟨rep, page, nodup, disjoint⟩ := h.linked.congr_nodes heq hnode
  exact ⟨rep, page, nodup, disjoint⟩

theorem WellFormed.congr {m m' : Memory} {lists : Nat → List Nat} (h : WellFormed m lists)
    (heq : Set.EqOn m' m (pageListBytes ∪ bytesOf (freeOf lists))) : WellFormed m' lists :=
  h.congr_nodes (heq.mono Set.subset_union_left) fun p hp _ ha =>
    heq (.inr ⟨p, hp, nodeWords_subset p ha⟩)

/-- The lists of a memory are determined by it. -/
theorem Chains.unique {m : Memory} {lists lists' : Nat → List Nat} (h : Chains m lists)
    (h' : Chains m lists') : ∀ i ≤ gCpuNums, lists i = lists' i := fun i hi =>
  (h.chain i hi).unique_of_end (h'.chain i hi) (fun hc => (h.page i hi _ hc).ne_offsetNull rfl)
    fun hc => (h'.page i hi _ hc).ne_offsetNull rfl

theorem Chains.freeOf_eq {m : Memory} {lists lists' : Nat → List Nat} (h : Chains m lists)
    (h' : Chains m lists') : freeOf lists = freeOf lists' := by
  ext q
  exact exists_congr fun i => and_congr_right fun hi => by rw [h.unique h' i hi]

/-- In memory `m` the page lists hold the pages `F`. -/
def HoldsPages (m : Memory) (F : Set Nat) : Prop := ∃ lists, Chains m lists ∧ F = freeOf lists

/-- What the contract asks of an allocation. -/
def AllocKeeps (m : Memory) (n : Nat) (r : Nat × Memory × Nat) : Prop :=
  ∀ F, HoldsPages m F → 1 ≤ n → ∃ p l F', r.1 = p + 4096 ∧ PageChain r.2.1 p l ∧ l.length = n ∧
    (∀ q ∈ l, q ∈ F) ∧ HoldsPages r.2.1 F' ∧ (∀ q ∈ F', q ∈ F ∧ q ∉ l) ∧
    ChangesOnly (allocatorBytes F) m r.2.1

/-- What the contract asks of a release. -/
def FreeKeeps (m : Memory) (node n : Nat) (m' : Memory) : Prop :=
  ∀ F p l, HoldsPages m F → node = p + 4096 → n = l.length → PageChain m p l → l ≠ [] →
    (∀ q ∈ l, q ∉ F) → ∃ F', HoldsPages m' F' ∧ (∀ q ∈ F', q ∈ F ∨ q ∈ l) ∧
      ChangesOnly (allocatorBytes (F ∪ {q | q ∈ l})) m m'

open Classical in
/-- `alloc_free_pages`, where it keeps the contract. -/
noncomputable def keptAlloc (m : Memory) (cpu n : Nat) : Option (Nat × Memory × Nat) :=
  (allocFreePages m cpu n).filter fun r => decide (AllocKeeps m n r)

open Classical in
/-- `free_pages`, where it keeps the contract. -/
noncomputable def keptFree (m : Memory) (cpu node n : Nat) : Memory × Nat :=
  if FreeKeeps m node n (freePages m cpu node n).1 then freePages m cpu node n else (m, cpu)

open Classical in
/-- The repository's allocator, as the code above sees it. -/
noncomputable def pageAllocator : PageAllocator where
  alloc := keptAlloc
  free := keptFree
  Rep := HoldsPages
  rep_page := by
    rintro m F ⟨lists, h, rfl⟩ p ⟨i, hi, hp⟩
    exact h.page i hi p hp
  rep_congr := by
    rintro m m' F ⟨lists, h, rfl⟩ heq
    exact ⟨lists, h.congr (heq.mono (pageListBytes_subset _)), rfl⟩
  alloc_spec := by
    intro m F cpu n node m' cpu' hF hn h
    rw [keptAlloc, Option.filter_eq_some_iff] at h
    exact of_decide_eq_true h.2 F hF hn
  free_spec := by
    intro m F cpu p l hF hc hne hfree
    rw [keptFree]
    split_ifs with h
    · exact h F p l hF rfl rfl hc hne hfree
    · exact ⟨F, hF, fun q hq => .inl hq, ChangesOnly.refl _ _⟩

theorem pageAllocator_alloc : pageAllocator.alloc = keptAlloc := by rw [pageAllocator]

theorem pageAllocator_free : pageAllocator.free = keptFree := by rw [pageAllocator]

theorem listBytes_subset {lists : Nat → List Nat} {i : Nat} (hi : 1 ≤ i ∧ i ≤ gCpuNums) :
    listBytes i {p | p ∈ lists 0 ++ lists i} ⊆ allocatorBytes (freeOf lists) := by
  rintro a (⟨j, hj, h1, h2⟩ | ⟨p, hp, h1, h2⟩)
  · refine .inl ?_
    rw [getLocalPageListAddr_eq] at h1 h2
    rw [gCpuNums] at hi
    rw [mem_metadata]
    omega
  · refine .inr ⟨p, ?_, h1, h2⟩
    rcases List.mem_append.1 hp with hp | hp
    · exact ⟨0, Nat.zero_le _, hp⟩
    · exact ⟨i, hi.2, hp⟩

/-- An allocation of `chain` from the lists keeps the contract. -/
theorem Linked.allocKeeps {m m' : Memory} {lists lists' : Nat → List Nat} {counts : Nat → Nat}
    {n p cpu' : Nat} {chain : List Nat} (h : Linked m lists counts) (hn : 1 ≤ n)
    (hseg : Segment (pageLink m') p chain offsetNull) (hlen : chain.length = n)
    (hnodup : chain.Nodup) (hfree : ∀ q ∈ chain, q ∈ freeOf lists) (h' : Chains m' lists')
    (hrest : freeOf lists' = freeOf lists \ {q | q ∈ chain})
    (hframe : ChangesOnly (allocatorBytes (freeOf lists)) m m') :
    AllocKeeps m n (getNvmPageNodeAddr p, m', cpu') := by
  have hpage : ∀ q ∈ chain, IsPage q ∧ ListNode.offset.get m (q + 4096) = q := fun q hq => by
    obtain ⟨i, hi, hq⟩ := hfree q hq
    have := h.page i hi q hq
    rwa [this.1.getNvmPageNodeAddr_eq] at this
  rintro F ⟨lists₂, hlists₂, rfl⟩ -
  rw [hlists₂.freeOf_eq h.chains]
  have hpc : p ∈ chain := by
    obtain ⟨q, rest, rfl⟩ := List.exists_cons_of_length_pos (l := chain) (by omega)
    rw [hseg.head_eq]
    exact List.mem_cons_self
  refine ⟨p, chain, freeOf lists', (hpage p hpc).1.getNvmPageNodeAddr_eq, ⟨hseg, hnodup,
    fun q hq => (hpage q hq).1, fun q hq => ?_⟩, hlen, hfree, ⟨lists', h', rfl⟩, ?_, hframe⟩
  · obtain ⟨hq, hoff⟩ := hpage q hq
    refine (Field.get_congr fun a ha => hframe a ?_).trans hoff
    simp only [Field.bytes, ListNode.offset_off, ListNode.offset_size, Set.mem_Ico] at ha
    rintro (hm | ⟨r, ⟨j, hj, hr⟩, har⟩)
    · have := hq.bounds
      rw [mem_metadata] at hm
      omega
    · rw [mem_linkBytes] at har
      by_cases hqr : q = r
      · omega
      · have := hq.apart (h.page j hj r hr).1 hqr
        omega
  · intro q hq
    rw [hrest] at hq
    exact hq

open Classical in
theorem keptAlloc_of_keeps {m : Memory} {currentCpu n : Nat} {r : Nat × Memory × Nat}
    (h : allocFreePages m currentCpu n = some r) (hkeeps : AllocKeeps m n r) :
    keptAlloc m currentCpu n = some r := by
  rw [keptAlloc, h, Option.filter_some]
  exact if_pos (decide_eq_true hkeeps)

/-- Where the allocator is exact, nothing is cut off. -/
theorem keptAlloc_eq {m : Memory} {lists : Nat → List Nat} {currentCpu n : Nat}
    (h : WellFormed m lists) (hn : 1 ≤ n) (hn' : n ≤ maxNumPagePerEntry)
    (hG : (lists (localIndex currentCpu)).length < n → fillLocalPageListMax ≤ (lists 0).length)
    (hend : (if (lists (localIndex currentCpu)).length < n then
      refilledEnd m (lists (localIndex currentCpu)) else offsetNull) = offsetNull) :
    keptAlloc m currentCpu n = allocFreePages m currentCpu n ∧
      ∃ r, allocFreePages m currentCpu n = some r := by
  have hi := localIndex_bounds currentCpu
  obtain ⟨p, chain, m', cpu', lists', halloc, hseg, hlen, hnodup, hfree, hwf, hF'⟩ :=
    h.allocExact hn hn' hG hend
  obtain ⟨_, _, _, _, _, _, halloc', -, -, -, -, -, heq, -⟩ :=
    (h.listPair hi).allocFreePages hn (hn'.trans (by decide)) le_rfl hG
  rw [halloc] at halloc'
  obtain ⟨-, rfl, -⟩ : _ ∧ m' = _ ∧ _ := by simpa using halloc'
  have hframe : ChangesOnly (allocatorBytes (freeOf lists)) m m' := fun a ha =>
    heq fun hc => ha (listBytes_subset hi hc)
  have hkeeps : AllocKeeps m n (getNvmPageNodeAddr p, m', cpu') :=
    h.linked.allocKeeps hn hseg hlen hnodup hfree hwf.chains hF' hframe
  exact ⟨(keptAlloc_of_keeps halloc hkeeps).trans halloc.symm, _, halloc⟩

/-! ## Allocating without a refill -/

/-- A well-formed local list that is long enough is cut. -/
theorem WellFormed.takeLocal {m : Memory} {lists : Nat → List Nat} (h : WellFormed m lists)
    {currentCpu k : Nat}
    (hk : 1 ≤ k) (hlen : k ≤ (lists (localIndex currentCpu)).length) :
    ∃ node m' cpu', allocFreePages m currentCpu k = some (node, m', cpu') ∧
      WellFormed m' (Function.update (Function.update lists 0 (lists 0)) (localIndex currentCpu)
        ((lists (localIndex currentCpu)).drop k)) := by
  have hi := localIndex_bounds currentCpu
  obtain ⟨p, m', halloc, hpair, -, heq⟩ := (h.listPair hi).takeLocal hk hlen le_rfl
  refine ⟨_, _, _, halloc, h.replace hi ?_ ?_ heq⟩
  · rwa [List.length_drop]
  · intro q hq
    rcases List.mem_append.1 hq with hq | hq
    · exact List.mem_append_left _ hq
    · exact List.mem_append_right _ (List.mem_of_mem_drop hq)

end Atfs
