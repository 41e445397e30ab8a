import Atfs.Allocator.Contract

/-!
# The stores of an allocation

`alloc_free_pages` store by store: the memories it passes through, one for every
assignment. All of them keep what the allocation as a whole keeps.
-/

namespace Atfs

open ByteMemory LinkedChain

/-! ## Store by store -/

/-- The stores of `fill_local_page_list` that link the nodes from `nodeHead` to `node` into
the local list. -/
def linkStores (m : Memory) (localPageList nodeHead node : Nat) : List Memory :=
  if PageList.head.get m localPageList = offsetNull then
    [PageList.head.set m localPageList (ListNode.offset.get m nodeHead)]
  else
    let head := getNvmPageNodeAddr (PageList.head.get m localPageList)
    let next := getNvmPageNodeAddr (ListNode.nextOffset.get m head)
    let m₁ := ListNode.nextOffset.set m head (ListNode.offset.get m nodeHead)
    [m₁, ListNode.nextOffset.set m₁ node (ListNode.offset.get m₁ next)]

/-- The memories `fill_local_page_list` leaves after each of its stores. -/
def fillLocalPageListStores (m : Memory) (localPageList pageCnt : Nat) : List Memory :=
  let globalPageList := getPageListBaseAddr
  let nodeHead := getNvmPageNodeAddr (PageList.head.get m globalPageList)
  let node := (nextNode m)^[pageCnt - 1] nodeHead
  let m₁ := PageList.head.set m globalPageList (ListNode.nextOffset.get m node)
  let m₂ := ListNode.nextOffset.set m₁ node offsetNull
  let linked := linkStores m₂ localPageList nodeHead node
  let m₃ := linked.getLastD m₂
  let m₄ := PageList.count.set m₃ globalPageList
    (addU64 (PageList.count.get m₃ globalPageList) (2 ^ 64 - pageCnt))
  m₁ :: m₂ :: linked ++
    [m₄, PageList.count.set m₄ localPageList (PageList.count.get m₄ localPageList + pageCnt)]

def refillLocalPageListStores (localPageList pageNum : Nat) : Nat → Memory → List Memory
  | 0, _ => []
  | fuel + 1, m =>
    let count := PageList.count.get m localPageList
    if count = 0 ∨ count < pageNum then
      fillLocalPageListStores m localPageList fillLocalPageListMax ++
        refillLocalPageListStores localPageList pageNum fuel
          (fillLocalPageList m localPageList fillLocalPageListMax)
    else []

/-- The stores of `alloc_free_pages` after its refill loop. -/
def takeFrontStores (m : Memory) (localPageList pageNum : Nat) : List Memory :=
  let head := getNvmPageNodeAddr (PageList.head.get m localPageList)
  let node := (nextNode m)^[decU32 pageNum] head
  let m₁ := PageList.head.set m localPageList (ListNode.nextOffset.get m node)
  let m₂ := ListNode.nextOffset.set m₁ node offsetNull
  [m₁, m₂, PageList.count.set m₂ localPageList
    (subU64 (PageList.count.get m₂ localPageList) pageNum)]

/-- The memories `alloc_free_pages` passes through. -/
def allocFreePagesStores (m : Memory) (currentCpu pageNum : Nat) : List Memory :=
  let localPageList := getLocalPageListAddr (localIndex currentCpu)
  refillLocalPageListStores localPageList pageNum (pageNum + 2) m ++
    match refillLocalPageList localPageList pageNum (pageNum + 2) m with
    | some m => takeFrontStores m localPageList pageNum
    | none => []

section Stores

variable {m m' : Memory} {currentCpu n : Nat}

/-- The last store leaves the memory the call returns with. -/
theorem allocFreePagesStores_last {node cpu' : Nat}
    (h : allocFreePages m currentCpu n = some (node, m', cpu')) :
    (allocFreePagesStores m currentCpu n).getLast? = some m' := by
  unfold allocFreePagesStores
  cases hrefill : refillLocalPageList (getLocalPageListAddr (localIndex currentCpu)) n
    (n + 2) m with
  | none =>
    rw [localIndex] at hrefill
    unfold allocFreePages at h
    simp only [hrefill, Option.bind_eq_bind, Option.bind_none] at h
    cases h
  | some m₁ =>
    rw [allocFreePages_eq hrefill] at h
    obtain ⟨-, rfl, -⟩ : _ ∧ takeFront m₁ _ n = m' ∧ _ := by simpa using h
    simp only [hrefill, takeFrontStores, List.getLast?_append, List.getLast?_cons_cons,
      List.getLast?_singleton, Option.some_or]
    rfl

end Stores

/-! ## What every store keeps -/

section Frames

variable {m m' : Memory} {i x c₀ c n : Nat} {xs rest l G : List Nat}

/-- Linking the nodes stays inside the local list and the last of the nodes. -/
theorem eqOn_linkStores {L : Set Nat} {v : Nat}
    (hlocal : Segment (pageLink m') (PageList.head.get m (getLocalPageListAddr i)) l offsetNull)
    (hpage : ∀ p ∈ l, IsPage p ∧ p ∈ L) (hx : x ∈ L) :
    ∀ m₁ ∈ linkStores m (getLocalPageListAddr i) v (x + 4096), Set.EqOn m₁ m (listBytes i L)ᶜ := by
  intro m₁ hm₁
  unfold linkStores at hm₁
  cases l with
  | nil =>
    rw [if_pos (segment_nil.1 hlocal)] at hm₁
    obtain rfl := List.mem_singleton.1 hm₁
    exact eqOn_set_head (.inr rfl)
  | cons y t =>
    obtain ⟨hy, hyL⟩ := hpage y (by simp)
    simp only [hlocal.head_eq, if_neg hy.ne_offsetNull, hy.getNvmPageNodeAddr_eq, List.mem_cons,
      List.not_mem_nil, or_false] at hm₁
    obtain rfl | rfl := hm₁
    · exact eqOn_set_link hyL
    · exact (eqOn_set_link hx).trans (eqOn_set_link hyL)

/-- The stores of a refill stay inside the two lists. -/
theorem RefillPre.eqOn_stores (h : RefillPre m i xs x rest l c₀ c) :
    ∀ m' ∈ fillLocalPageListStores m (getLocalPageListAddr i) fillLocalPageListMax,
      Set.EqOn m' m (listBytes i {p | p ∈ xs ++ x :: rest ++ l})ᶜ := by
  have hx : x ∈ {p | p ∈ xs ++ x :: rest ++ l} := by simp
  have hbase : getPageListBaseAddr = getLocalPageListAddr 0 := rfl
  have hwalk := h.walk
  rw [hbase] at hwalk
  intro m' hm'
  unfold fillLocalPageListStores at hm'
  simp only [hbase, hwalk] at hm'
  have e₁ : Set.EqOn (PageList.head.set m (getLocalPageListAddr 0)
      (ListNode.nextOffset.get m (x + 4096))) m (listBytes i {p | p ∈ xs ++ x :: rest ++ l})ᶜ :=
    eqOn_set_head (.inl rfl)
  have hhead : PageList.head.get (PageList.head.set m (getLocalPageListAddr 0)
      (ListNode.nextOffset.get m (x + 4096))) (getLocalPageListAddr i) =
      PageList.head.get m (getLocalPageListAddr i) := header_get_set_header h.index_ne _ _ _ _
  generalize PageList.head.set m (getLocalPageListAddr 0)
    (ListNode.nextOffset.get m (x + 4096)) = m₁ at e₁ hhead hm'
  have e₂ := (eqOn_set_link (m := m₁) (v := offsetNull) hx).trans e₁
  rw [← header_get_set_node h.index.2 h.isPage_x _ ListNode.nextOffset m₁ offsetNull] at hhead
  generalize ListNode.nextOffset.set m₁ (x + 4096) offsetNull = m₂ at e₂ hhead hm'
  have hlink := eqOn_linkStores (m := m₂)
    (v := getNvmPageNodeAddr (PageList.head.get m (getLocalPageListAddr 0)))
    (L := {p | p ∈ xs ++ x :: rest ++ l}) (hhead ▸ h.local_.chain)
    (fun p hp => have hp' : p ∈ xs ++ x :: rest ++ l := by simp [hp]
      ⟨h.isPage hp', hp'⟩) hx
  generalize linkStores m₂ (getLocalPageListAddr i)
    (getNvmPageNodeAddr (PageList.head.get m (getLocalPageListAddr 0))) (x + 4096) = linked
    at hlink hm'
  have e₃ : Set.EqOn (linked.getLastD m₂) m (listBytes i {p | p ∈ xs ++ x :: rest ++ l})ᶜ := by
    rcases List.mem_cons.1 (List.getLastD_mem_cons (l := linked) (a := m₂)) with h₃ | h₃
    · rw [h₃]
      exact e₂
    · exact (hlink _ h₃).trans e₂
  generalize linked.getLastD m₂ = m₃ at e₃ hm'
  simp only [List.cons_append, List.mem_cons, List.mem_append, List.not_mem_nil, or_false] at hm'
  obtain rfl | rfl | hm' | rfl | rfl := hm'
  · exact e₁
  · exact e₂
  · exact (hlink m' hm').trans e₂
  · exact (eqOn_set_count (.inl rfl)).trans e₃
  · exact (eqOn_set_count (.inr rfl)).trans ((eqOn_set_count (.inl rfl)).trans e₃)

/-- So do the stores that cut the front of the local list. -/
theorem ListPair.eqOn_takeFrontStores {e : Nat} (h : ListPair m i G l e c₀ c) (hn : 1 ≤ n)
    (hnl : n ≤ l.length) : ∀ m' ∈ takeFrontStores m (getLocalPageListAddr i) n,
      Set.EqOn m' m (listBytes i {p | p ∈ G ++ l})ᶜ := by
  have hlen : l.length ≤ nvmFreeNumPages :=
    IsPage.length_le (fun p hp => h.isPage (List.mem_append_right _ hp))
      (List.nodup_append.1 h.nodup).2.1
  rw [nvmFreeNumPages_eq] at hlen
  have hmem : l[n - 1] ∈ G ++ l := List.mem_append_right _ (List.getElem_mem _)
  have hwalk : (nextNode m)^[decU32 n]
      (getNvmPageNodeAddr (PageList.head.get m (getLocalPageListAddr i))) = l[n - 1] + 4096 := by
    rw [decU32_of_pos hn (by omega), nextNode_iterate, h.local_.chain.iterate (by omega),
      (h.isPage hmem).getNvmPageNodeAddr_eq]
  intro m' hm'
  simp only [takeFrontStores, hwalk, List.mem_cons, List.not_mem_nil, or_false] at hm'
  have e₁ {v : Nat} : Set.EqOn (PageList.head.set m (getLocalPageListAddr i) v) m
      (listBytes i {p | p ∈ G ++ l})ᶜ := eqOn_set_head (.inr rfl)
  obtain rfl | rfl | rfl := hm'
  · exact e₁
  · exact (eqOn_set_link hmem).trans e₁
  · exact (eqOn_set_count (.inr rfl)).trans ((eqOn_set_link hmem).trans e₁)

/-- All stores of an allocation stay inside its two lists. -/
theorem ListPair.eqOn_allocFreePagesStores {currentCpu : Nat}
    (h : ListPair m (localIndex currentCpu) G l offsetNull c₀ c) (hn : 1 ≤ n)
    (hn' : n ≤ fillLocalPageListMax) (hc : c ≤ l.length)
    (hG : c < n → fillLocalPageListMax ≤ G.length) :
    ∀ m' ∈ allocFreePagesStores m currentCpu n,
      Set.EqOn m' m (listBytes (localIndex currentCpu) {p | p ∈ G ++ l})ᶜ := by
  have hi := localIndex_bounds currentCpu
  have hcount := h.local_.count
  obtain ⟨m₁, G', l', c₀', c', hrefill, hpair, hnc, hcl, hperm, heq, -⟩ := h.refill hi hn hn' hc hG
  have hpages : {p | p ∈ G' ++ l'} = {p | p ∈ G ++ l} := Set.ext fun p => hperm.mem_iff
  have hfront := hpair.eqOn_takeFrontStores hn (hnc.trans hcl)
  rw [hpages] at hfront
  intro m' hm'
  rw [allocFreePagesStores, hrefill] at hm'
  rcases List.mem_append.1 hm' with hm' | hm'
  · rw [refillLocalPageListStores] at hm'
    simp only [hcount] at hm'
    split_ifs at hm' with hcn
    · -- a second refill is not needed
      have hlt : c < n := by omega
      obtain ⟨_, _, _, hpair', -⟩ := h.fill hi hc (hG hlt) rfl
      have hcount' := hpair'.local_.count
      rw [refillLocalPageListStores] at hm'
      simp only [hcount'] at hm'
      rw [if_neg (by rw [fillLocalPageListMax] at *; omega), List.append_nil] at hm'
      obtain ⟨xs, x, rest, rfl, hxs⟩ := exists_block (hG hlt)
      exact RefillPre.eqOn_stores ⟨hi, hxs, h.global, h.local_, h.page, h.nodup⟩ m' hm'
    · cases hm'
  · exact (hfront m' hm').trans heq

end Frames

/-! ## As part of the contract -/

/-- The stores of an allocator: the memories its allocations pass through, the last being the
one they return with. No store leaves the bytes an allocation may write. -/
structure AllocStores (A : PageAllocator) where
  stores : Memory → Nat → Nat → List Memory
  last : ∀ {m cpu n node m' cpu'}, A.alloc m cpu n = some (node, m', cpu') →
    (stores m cpu n).getLast? = some m'
  frame : ∀ {m F} cpu {n}, A.Rep m F → 1 ≤ n → ∀ m' ∈ stores m cpu n,
    ChangesOnly (allocatorBytes F) m m'

/-- What the contract asks of the stores of an allocation. -/
def StoresKeep (m : Memory) (ms : List Memory) : Prop :=
  ∀ F, HoldsPages m F → ∀ m' ∈ ms, ChangesOnly (allocatorBytes F) m m'

open Classical in
/-- The stores of `alloc_free_pages`, where they keep the contract. -/
noncomputable def keptStores (m : Memory) (cpu n : Nat) : List Memory :=
  if StoresKeep m (allocFreePagesStores m cpu n) then allocFreePagesStores m cpu n
  else ((keptAlloc m cpu n).map (·.2.1)).toList

open Classical in
/-- The stores of the repository's allocator, as the code above sees them. -/
noncomputable def pageAllocatorStores : AllocStores pageAllocator where
  stores := keptStores
  last := by
    intro m cpu n node m' cpu' h
    rw [pageAllocator_alloc] at h
    unfold keptStores
    split_ifs
    · rw [keptAlloc, Option.filter_eq_some_iff] at h
      exact allocFreePagesStores_last h.1
    · rw [h]
      rfl
  frame := by
    intro m F cpu n hF hn m' hm'
    unfold keptStores at hm'
    split_ifs at hm' with hkeep
    · exact hkeep F hF m' hm'
    · cases halloc : keptAlloc m cpu n with
      | none => simp [halloc] at hm'
      | some r =>
        obtain rfl : m' = r.2.1 := by simpa [halloc] using hm'
        rw [keptAlloc, Option.filter_eq_some_iff] at halloc
        obtain ⟨-, -, -, -, -, -, -, -, -, hframe⟩ := of_decide_eq_true halloc.2 F hF hn
        exact hframe

/-- In a well-formed state no store is cut off. -/
theorem keptStores_eq {m : Memory} {lists : Nat → List Nat} {currentCpu n : Nat}
    (h : WellFormed m lists) (hn : 1 ≤ n) (hn' : n ≤ fillLocalPageListMax)
    (hG : (lists (localIndex currentCpu)).length < n → fillLocalPageListMax ≤ (lists 0).length) :
    keptStores m currentCpu n = allocFreePagesStores m currentCpu n := by
  have hi := localIndex_bounds currentCpu
  have hstores := (h.listPair hi).eqOn_allocFreePagesStores hn hn' le_rfl hG
  refine if_pos ?_
  rintro F ⟨lists', hlists', rfl⟩ m' hm' a ha
  rw [hlists'.freeOf_eq h.chains] at ha
  exact hstores m' hm' fun hc => ha (listBytes_subset hi hc)

end Atfs
