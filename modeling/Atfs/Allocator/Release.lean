import Atfs.Allocator.Contract

/-!
# Releasing pages

`free_pages` links the released chain in behind the head of the list. It is right about every
list that has a head. At an empty list the head is `OFFSET_NULL`, whose node would start at 4095
in the superblock: the chain is linked to that and to nothing else.
-/

namespace Atfs

open ByteMemory LinkedChain

/-! ## The writes of `free_pages` -/

/-- The index of the list that `free_pages` puts its pages on. -/
def releaseIndex (m : Memory) (currentCpu : Nat) : Nat :=
  if PageList.count.get m (getLocalPageListAddr (localIndex currentCpu)) > fillLocalPageListMax
  then 0
  else localIndex currentCpu

section Release

variable {m : Memory} {currentCpu p x y e : Nat} {ys rest : List Nat}

theorem releaseIndex_le (m : Memory) (currentCpu : Nat) : releaseIndex m currentCpu ≤ gCpuNums := by
  have := localIndex_bounds currentCpu
  unfold releaseIndex
  split_ifs <;> omega

/-- The memory after the chain from `p` to `y` is linked in behind `x`. -/
def linkedBehind (m : Memory) (x p y : Nat) : Memory :=
  ListNode.nextOffset.set (ListNode.nextOffset.set m (x + 4096) p) (y + 4096) (pageLink m x)

theorem Segment.isPage_head {f : Nat → Nat} {l : List Nat} (h : Segment f p l e) (hne : l ≠ [])
    (hpage : ∀ q ∈ l, IsPage q) : IsPage p := by
  cases l with
  | nil => exact absurd rfl hne
  | cons z zs => exact h.head_eq ▸ hpage z List.mem_cons_self

/-- `free_pages` with its walk resolved. -/
theorem freePages_walk (h : Segment (pageLink m) p (ys ++ [y]) e)
    (hpage : ∀ q ∈ ys ++ [y], IsPage q) {head : Nat}
    (hhead : PageList.head.get m (getLocalPageListAddr (releaseIndex m currentCpu)) = head) :
    freePages m currentCpu (p + 4096) (ys ++ [y]).length =
      (ListNode.nextOffset.set (ListNode.nextOffset.set m (getNvmPageNodeAddr head) p) (y + 4096)
        (pageLink m head), (getCpuid currentCpu).2) := by
  have hp : IsPage p := Segment.isPage_head h (by simp) hpage
  have hy : IsPage y := hpage y (by simp)
  have hwalk : (nextNode m)^[(ys ++ [y]).length - 1] (p + 4096) = y + 4096 := by
    rw [← hp.getNvmPageNodeAddr_eq, nextNode_iterate, List.length_append, List.length_singleton,
      Nat.add_sub_cancel, h.iterate (by simp)]
    simp [hy.getNvmPageNodeAddr_eq]
  have hlist : (if PageList.count.get m (getLocalPageListAddr (localIndex currentCpu)) >
      fillLocalPageListMax then getPageListBaseAddr
      else getLocalPageListAddr (localIndex currentCpu)) =
      getLocalPageListAddr (releaseIndex m currentCpu) := by
    unfold releaseIndex
    split_ifs <;> rfl
  unfold freePages
  simp only [← localIndex.eq_def, hlist, hwalk, hhead, hp.getNvmNode2pageAddr_eq]
  rfl

theorem freePages_eq (h : Segment (pageLink m) p (ys ++ [y]) e) (hpage : ∀ q ∈ ys ++ [y], IsPage q)
    (hx : IsPage x)
    (hhead : PageList.head.get m (getLocalPageListAddr (releaseIndex m currentCpu)) = x) :
    freePages m currentCpu (p + 4096) (ys ++ [y]).length =
      (linkedBehind m x p y, (getCpuid currentCpu).2) := by
  rw [freePages_walk h hpage hhead, hx.getNvmPageNodeAddr_eq]
  rfl

/-- The links after a release. -/
theorem pageLink_linkedBehind {q : Nat} (hp : IsPage p) (hx : IsPage x) (hy : IsPage y)
    (hq : IsPage q) : pageLink (linkedBehind m x p y) q =
      Function.update (Function.update (pageLink m) x p) y (pageLink m x) q := by
  have hlt : pageLink m x < 2 ^ 64 := by
    rw [hx.pageLink_eq]
    exact ListNode.nextOffset.get_lt m _
  have hp' := hp.bounds
  unfold linkedBehind
  rw [hq.pageLink_set hy hlt]
  by_cases h : q = y
  · rw [h, Function.update_self, Function.update_self]
  · rw [Function.update_of_ne h, Function.update_of_ne h, hq.pageLink_set hx (by omega)]

/-- The list goes through the released pages after its head. -/
theorem segment_linkedBehind {e' : Nat} (hlist : Segment (pageLink m) x (x :: rest) e)
    (hchain : Segment (pageLink m) p (ys ++ [y]) e')
    (hpage : ∀ q ∈ x :: (ys ++ [y]) ++ rest, IsPage q) (hnodup : (x :: (ys ++ [y]) ++ rest).Nodup) :
    Segment (pageLink (linkedBehind m x p y)) x (x :: (ys ++ [y]) ++ rest) e := by
  have hx := hpage x (by simp)
  have hy := hpage y (by simp)
  have hp : IsPage p := Segment.isPage_head hchain (by simp) fun q hq =>
    hpage q (by grind)
  refine Segment.congr (f := Function.update (Function.update (pageLink m) x p) y (pageLink m x)) ?_
    fun q hq => (pageLink_linkedBehind hp hx hy (hpage q hq)).symm
  rw [List.cons_append, List.nodup_cons, List.nodup_append'] at hnodup
  obtain ⟨hxn, hys, hrest, hdisj⟩ := hnodup
  have hxy : x ≠ y := by grind
  refine ⟨rfl, ?_⟩
  rw [Function.update_of_ne hxy, Function.update_self]
  refine Segment.append ?_ ((hlist.2.update ?_).update ?_)
  · refine (hchain.update (x := x) (y := p) ?_).relink_last ?_
    · grind
    · grind
  · grind
  · exact fun hc => hdisj (by simp) hc

/-! ## Which releases are kept -/

def headerBytes (i : Nat) : Set Nat :=
  Set.Ico (getLocalPageListAddr i) (getLocalPageListAddr i + sizeofPageList)

def nodeBytes (p : Nat) : Set Nat := Set.Ico (p + 4096) (p + 4136)

/-- List `i`, which held the pages `old`, has got the pages `freed` too, and nothing was written
but its header, the nodes of these pages and the node of its old head. -/
structure Released (m : Memory) (i : Nat) (old freed : List Nat) (m' : Memory) : Prop where
  chain : ∃ l, Segment (pageLink m') (PageList.head.get m' (getLocalPageListAddr i)) l offsetNull ∧
    l.Perm (old ++ freed) ∧ l.Nodup
  frame : ChangesOnly (headerBytes i ∪ {a | ∃ q ∈ old.head?.toList ++ freed, a ∈ nodeBytes q}) m m'

variable {lists : Nat → List Nat} {counts : Nat → Nat} {j : Nat}

theorem changesOnly_linkedBehind (m : Memory) (x p y : Nat) :
    ChangesOnly (linkBytes x ∪ linkBytes y) m (linkedBehind m x p y) :=
  ((changesOnly_setLink m x p).mono Set.subset_union_left).trans
    ((changesOnly_setLink _ y _).mono Set.subset_union_right)

/-- A list with a head, once the chain is linked in behind it. -/
theorem Chains.linkedBehind (h : Chains m lists) (hj : j ≤ gCpuNums) (hlist : lists j = x :: rest)
    (hchain : Segment (pageLink m) p (ys ++ [y]) e) (hnodup : (ys ++ [y]).Nodup)
    (hpage : ∀ q ∈ ys ++ [y], IsPage q ∧ q ∉ freeOf lists) :
    PageList.head.get (linkedBehind m x p y) (getLocalPageListAddr j) = x ∧
      Segment (pageLink (Atfs.linkedBehind m x p y)) x (x :: (ys ++ [y]) ++ rest) offsetNull ∧
      (∀ q ∈ x :: (ys ++ [y]) ++ rest, IsPage q) ∧ (x :: (ys ++ [y]) ++ rest).Nodup := by
  have hold := h.chain _ hj
  have holdPage := h.page _ hj
  rw [hlist] at hold holdPage
  have hhead := hold.head_eq
  have hxp := holdPage x List.mem_cons_self
  have hpages : ∀ q ∈ ys ++ [y], IsPage q := fun q hq => (hpage q hq).1
  have hfree : ∀ q ∈ ys ++ [y], q ∉ x :: rest := fun q hq hc =>
    (hpage q hq).2 ⟨_, hj, hlist ▸ hc⟩
  have hall : ∀ q ∈ x :: (ys ++ [y]) ++ rest, IsPage q := by
    intro q hq
    rw [List.cons_append, List.mem_cons, List.mem_append] at hq
    rcases hq with rfl | hq | hq
    · exact hxp
    · exact hpages q hq
    · exact holdPage q (List.mem_cons_of_mem _ hq)
  have hperm : (x :: (ys ++ [y]) ++ rest).Perm ((x :: rest) ++ (ys ++ [y])) :=
    List.Perm.cons x List.perm_append_comm
  have hnodup' : (x :: (ys ++ [y]) ++ rest).Nodup := by
    have hnull : offsetNull ∉ x :: rest := fun hc => (holdPage _ hc).ne_offsetNull rfl
    exact hperm.nodup_iff.2 (List.nodup_append'.2
      ⟨hold.nodup hnull, hnodup, fun q hq hq' => hfree q hq' hq⟩)
  have hsame : PageList.head.get (Atfs.linkedBehind m x p y) (getLocalPageListAddr j) = x := by
    rw [Atfs.linkedBehind, header_get_set_node hj (hpages y (by simp)), header_get_set_node hj hxp,
      hhead]
  rw [hhead] at hold
  exact ⟨hsame, segment_linkedBehind hold hchain hall hnodup', hall, hnodup'⟩

/-- A list with a head gets the released pages. -/
theorem Chains.released (h : Chains m lists) (hchain : Segment (pageLink m) p (ys ++ [y]) e)
    (hnodup : (ys ++ [y]).Nodup) (hpage : ∀ q ∈ ys ++ [y], IsPage q ∧ q ∉ freeOf lists)
    (hlist : lists (releaseIndex m currentCpu) = x :: rest) :
    Released m (releaseIndex m currentCpu) (x :: rest) (ys ++ [y])
      (freePages m currentCpu (p + 4096) (ys ++ [y]).length).1 := by
  have hi := releaseIndex_le m currentCpu
  have hold := h.chain _ hi
  rw [hlist] at hold
  obtain ⟨hsame, hseg, hall, hnodup'⟩ := h.linkedBehind hi hlist hchain hnodup hpage
  have hxp := hall x (by simp)
  rw [freePages_eq hchain (fun q hq => (hpage q hq).1) hxp hold.head_eq]
  refine ⟨⟨x :: (ys ++ [y]) ++ rest, ?_, List.Perm.cons x List.perm_append_comm, hnodup'⟩, ?_⟩
  · simp only [hsame]
    exact hseg
  · -- both writes are links of nodes
    refine (changesOnly_linkedBehind m x p y).mono
      (Set.union_subset (fun a ha => ?_) fun a ha => ?_)
    · refine .inr ⟨x, by simp, ?_⟩
      rw [mem_linkBytes] at ha
      rw [nodeBytes, Set.mem_Ico]
      omega
    · refine .inr ⟨y, by simp, ?_⟩
      rw [mem_linkBytes] at ha
      rw [nodeBytes, Set.mem_Ico]
      omega

/-- A list without a head gets none of them. -/
theorem Chains.not_released (h : Chains m lists) (currentCpu : Nat)
    (hchain : Segment (pageLink m) p (ys ++ [y]) e)
    (hpage : ∀ q ∈ ys ++ [y], IsPage q) (hlist : lists (releaseIndex m currentCpu) = []) :
    ¬ Released m (releaseIndex m currentCpu) [] (ys ++ [y])
      (freePages m currentCpu (p + 4096) (ys ++ [y]).length).1 := by
  have hi := releaseIndex_le m currentCpu
  have hold := h.chain _ hi
  rw [hlist, segment_nil] at hold
  rw [freePages_walk hchain hpage hold]
  rintro ⟨⟨l, hl, hperm, -⟩, -⟩
  -- the node of `OFFSET_NULL` lies in front of the lists
  have hhead : PageList.head.get (ListNode.nextOffset.set (ListNode.nextOffset.set m
      (getNvmPageNodeAddr offsetNull) p) (y + 4096) (pageLink m offsetNull))
      (getLocalPageListAddr (releaseIndex m currentCpu)) = offsetNull := by
    rw [header_get_set_node hi (hpage y (by simp))]
    refine (Field.get_set_of_apart _ _ _ (.inr ?_)).trans hold
    rw [getNvmPageNodeAddr_offsetNull, getLocalPageListAddr_eq]
    omega
  simp only [hhead] at hl
  rw [List.nil_append] at hperm
  cases l with
  | nil => simpa using hperm.length_eq
  | cons z zs =>
    obtain rfl : offsetNull = z := hl.head_eq
    exact (hpage _ (hperm.mem_iff.1 List.mem_cons_self)).ne_offsetNull rfl

/-- A release loses no page if and only if the list it goes to is not empty. -/
theorem freePages_released_iff (h : Chains m lists) (currentCpu : Nat) {l : List Nat} (hne : l ≠ [])
    (hchain : Segment (pageLink m) p l e) (hnodup : l.Nodup)
    (hpage : ∀ q ∈ l, IsPage q ∧ q ∉ freeOf lists) :
    Released m (releaseIndex m currentCpu) (lists (releaseIndex m currentCpu)) l
        (freePages m currentCpu (p + 4096) l.length).1 ↔
      lists (releaseIndex m currentCpu) ≠ [] := by
  obtain ⟨ys, y, rfl⟩ : ∃ ys y, l = ys ++ [y] := ⟨_, _, (List.dropLast_append_getLast hne).symm⟩
  cases hlist : lists (releaseIndex m currentCpu) with
  | nil =>
    exact iff_of_false (h.not_released currentCpu hchain (fun q hq => (hpage q hq).1) hlist)
      fun hc => hc rfl
  | cons x rest => exact iff_of_true (h.released hchain hnodup hpage hlist) (List.cons_ne_nil _ _)

end Release

/-! ## As part of the contract -/

section Contract

variable {m : Memory} {lists : Nat → List Nat} {counts : Nat → Nat} {currentCpu p x y e j : Nat}
  {ys rest l : List Nat}

theorem freeOf_update (hj : j ≤ gCpuNums) {l' : List Nat} (hperm : l'.Perm (lists j ++ l)) :
    freeOf (Function.update lists j l') = freeOf lists ∪ {q | q ∈ l} := by
  ext q
  have hmem : q ∈ l' ↔ q ∈ lists j ∨ q ∈ l := by rw [hperm.mem_iff, List.mem_append]
  constructor
  · rintro ⟨i, hi, hq⟩
    by_cases hij : i = j
    · subst hij
      rw [Function.update_self, hmem] at hq
      exact hq.imp (fun hq => ⟨i, hi, hq⟩) id
    · rw [Function.update_of_ne hij] at hq
      exact .inl ⟨i, hi, hq⟩
  · rintro (⟨i, hi, hq⟩ | hq)
    · by_cases hij : i = j
      · subst hij
        exact ⟨i, hi, by rw [Function.update_self, hmem]; exact .inl hq⟩
      · exact ⟨i, hi, by rwa [Function.update_of_ne hij]⟩
    · exact ⟨j, hj, by rw [Function.update_self, hmem]; exact .inr hq⟩

/-- The lists after a release to list `j`. No count has changed. -/
theorem Linked.linkedBehind (h : Linked m lists counts) (hj : j ≤ gCpuNums)
    (hlist : lists j = x :: rest) (hchain : PageChain m p (ys ++ [y]))
    (hfree : ∀ q ∈ ys ++ [y], q ∉ freeOf lists) :
    Linked (Atfs.linkedBehind m x p y) (Function.update lists j (x :: (ys ++ [y]) ++ rest))
      counts := by
  obtain ⟨hhead, hseg, hall, hnodup⟩ := h.chains.linkedBehind hj hlist hchain.chain hchain.nodup
    fun q hq => ⟨hchain.page q hq, hfree q hq⟩
  have hx := hall x (by simp)
  have hy := hall y (by simp)
  have hp := Segment.isPage_head hchain.chain (by simp) hchain.page
  have hxj : x ∈ lists j := hlist ▸ List.mem_cons_self
  have hheader {i : Nat} (hi : i ≤ gCpuNums) (f : Field 56) :
      f.get (Atfs.linkedBehind m x p y) (getLocalPageListAddr i) =
        f.get m (getLocalPageListAddr i) := by
    rw [Atfs.linkedBehind, header_get_set_node hi hy, header_get_set_node hi hx]
  have hapart {i : Nat} (hi : i ≤ gCpuNums) (hij : i ≠ j) {q : Nat} (hq : q ∈ lists i) :
      q ∉ x :: (ys ++ [y]) ++ rest := by
    intro hc
    have hq' : q ∉ lists j := fun hc => h.disjoint i hi j hj hij hq hc
    rw [hlist] at hq'
    have : q ∈ ys ++ [y] := by grind
    exact hfree q this ⟨i, hi, hq⟩
  refine ⟨fun i hi => ⟨?_, (hheader hi _).trans (h.rep i hi).count⟩, fun i hi q hq => ?_,
    fun i hi => ?_, fun i hi k hk hik => ?_⟩
  · by_cases hij : i = j
    · subst hij
      rwa [Function.update_self, hhead]
    · -- the links that are written are on list `j`
      rw [Function.update_of_ne hij, hheader hi]
      refine (h.rep i hi).chain.congr fun q hq => ?_
      have hq' := hapart hi hij hq
      rw [pageLink_linkedBehind hp hx hy (h.page i hi q hq).1, Function.update_of_ne (by grind),
        Function.update_of_ne (by grind)]
  · have hold : IsPage q ∧ ListNode.offset.get m (getNvmPageNodeAddr q) = q := by
      by_cases hij : i = j
      · subst hij
        rw [Function.update_self] at hq
        by_cases hq' : q ∈ ys ++ [y]
        · have hpage := hchain.page q hq'
          exact ⟨hpage, hpage.getNvmPageNodeAddr_eq ▸ hchain.offset q hq'⟩
        · exact h.page i hi q (hlist ▸ by grind)
      · exact h.page i hi q (by rwa [Function.update_of_ne hij] at hq)
    refine ⟨hold.1, Eq.trans (Field.get_congr fun a ha => ?_) hold.2⟩
    refine changesOnly_linkedBehind m x p y a ?_
    rw [hold.1.getNvmPageNodeAddr_eq, Field.bytes, ListNode.offset_off, ListNode.offset_size,
      Set.mem_Ico] at ha
    have hx' := hold.1.eq_or_apart hx
    have hy' := hold.1.eq_or_apart hy
    rw [Set.mem_union, mem_linkBytes, mem_linkBytes]
    omega
  · by_cases hij : i = j
    · subst hij
      rwa [Function.update_self]
    · rw [Function.update_of_ne hij]
      exact h.nodup i hi
  · by_cases hij : i = j
    · subst hij
      rw [Function.update_self, Function.update_of_ne (Ne.symm hik)]
      exact fun q hq hq' => hapart hk (Ne.symm hik) hq' hq
    · rw [Function.update_of_ne hij]
      by_cases hkj : k = j
      · subst hkj
        rw [Function.update_self]
        exact fun q hq hq' => hapart hi hij hq hq'
      · rw [Function.update_of_ne hkj]
        exact h.disjoint i hi k hk hik

/-- Releasing a chain to a list with a head. -/
theorem Linked.freePages (h : Linked m lists counts)
    (hne : lists (releaseIndex m currentCpu) ≠ []) (hchain : PageChain m p l) (hl : l ≠ [])
    (hfree : ∀ q ∈ l, q ∉ freeOf lists) :
    ∃ l', l'.Perm (lists (releaseIndex m currentCpu) ++ l) ∧
      Linked (Atfs.freePages m currentCpu (p + 4096) l.length).1
        (Function.update lists (releaseIndex m currentCpu) l') counts ∧
      ChangesOnly {a | ∃ q ∈ freeOf lists ∪ {q | q ∈ l}, a ∈ linkBytes q} m
        (Atfs.freePages m currentCpu (p + 4096) l.length).1 := by
  have hi := releaseIndex_le m currentCpu
  obtain ⟨ys, y, rfl⟩ : ∃ ys y, l = ys ++ [y] := ⟨_, _, (List.dropLast_append_getLast hl).symm⟩
  obtain ⟨x, rest, hlist⟩ := List.exists_cons_of_ne_nil hne
  have hold := (h.rep _ hi).chain
  rw [hlist] at hold
  have hxi : x ∈ lists (releaseIndex m currentCpu) := hlist ▸ List.mem_cons_self
  rw [freePages_eq hchain.chain hchain.page (h.page _ hi x hxi).1 hold.head_eq]
  refine ⟨_, ?_, h.linkedBehind hi hlist hchain hfree, (changesOnly_linkedBehind m x p y).mono ?_⟩
  · rw [hlist]
    exact List.Perm.cons x List.perm_append_comm
  · rintro a (ha | ha)
    · exact ⟨x, .inl ⟨_, hi, hxi⟩, ha⟩
    · exact ⟨y, .inr (by simp), ha⟩

/-- A release to a list with a head keeps the contract. -/
theorem Linked.freeKeeps (h : Linked m lists counts)
    (hne : lists (releaseIndex m currentCpu) ≠ []) (node n : Nat) :
    FreeKeeps m node n (Atfs.freePages m currentCpu node n).1 := by
  rintro F p l ⟨lists', hlists', rfl⟩ rfl rfl hchain hl hfree
  rw [hlists'.freeOf_eq h.chains] at hfree ⊢
  obtain ⟨l', hperm, hlinked, hframe⟩ := h.freePages hne hchain hl hfree
  have hset := freeOf_update (releaseIndex_le m currentCpu) hperm
  exact ⟨_, ⟨_, hlinked.chains, rfl⟩, fun q hq => by rwa [hset] at hq,
    hframe.mono Set.subset_union_right⟩

/-- Where the list has a head, nothing is cut off. -/
theorem keptFree_eq (h : Linked m lists counts)
    (hne : lists (releaseIndex m currentCpu) ≠ []) (node n : Nat) :
    keptFree m currentCpu node n = freePages m currentCpu node n :=
  if_pos (h.freeKeeps hne node n)

end Contract

/-! ## One list -/

/-- All lists hold two pages, and the first `n` of list 1 have been allocated. -/
theorem twoPages_taken {n : Nat} (hn : 1 ≤ n) (hn' : n ≤ 2) : ∃ p pages m' lists,
    Taken (freeImage 2 2 fun _ _ => 0).mem (freeLists 2 2) 0 n p pages m' lists ∧
      releaseIndex m' 0 = 1 ∧ (lists 1).length = 2 - n := by
  have hwf : WellFormed (freeImage 2 2 fun _ _ => 0).mem (freeLists 2 2) :=
    freeImage_wellFormed (by decide) (by decide)
  have hone : localIndex 0 = 1 := rfl
  have hlen : (freeLists 2 2 (localIndex 0)).length = 2 := length_freeLists (by decide)
  obtain ⟨p, pages, m', lists, ht⟩ : ∃ p pages m' lists,
      Taken (freeImage 2 2 fun _ _ => 0).mem (freeLists 2 2) 0 n p pages m' lists :=
    hwf.taken hn 0 (by omega) (by omega) (by omega) (by omega)
  obtain ⟨node, m₁, cpu, halloc, hwf₁⟩ : ∃ node m₁ cpu,
      allocFreePages (freeImage 2 2 fun _ _ => 0).mem 0 n = some (node, m₁, cpu) ∧ _ :=
    hwf.takeLocal hn (by omega)
  have hsame := ht.alloc.symm.trans halloc
  simp only [Option.some.injEq, Prod.mk.injEq] at hsame
  obtain ⟨-, rfl, -⟩ := hsame
  have hlist := ht.wellFormed.chains.unique hwf₁.chains 1 (by decide)
  rw [hone, Function.update_self] at hlist
  have hlen' : (lists 1).length = 2 - n := by
    rw [hlist, List.length_drop, ← hone, hlen]
  refine ⟨p, pages, m', lists, ht, ?_, hlen'⟩
  have hcount := (ht.wellFormed.rep 1 (by decide)).count
  rw [releaseIndex, hone, if_neg]
  rw [hcount, fillLocalPageListMax]
  omega

/-- The pages of an allocation are on no list. -/
theorem Taken.page {m m' : Memory} {lists lists' : Nat → List Nat} {currentCpu n p : Nat}
    {pages : List Nat} (h : WellFormed m lists)
    (ht : Taken m lists currentCpu n p pages m' lists') :
    ∀ q ∈ pages, IsPage q ∧ q ∉ freeOf lists' := by
  intro q hq
  obtain ⟨i, hi, hqi⟩ := ht.fresh q hq
  refine ⟨(h.page i hi q hqi).1, fun hc => ?_⟩
  rw [ht.rest] at hc
  exact hc.2 hq

/-- One of the two pages is given back. -/
theorem freePages_released_iff_sample : ∃ p pages m' lists,
    WellFormed m' lists ∧ pages.length = 1 ∧ (lists 1).length = 1 ∧
      Released m' 1 (lists 1) pages (freePages m' 0 (p + 4096) 1).1 := by
  obtain ⟨p, pages, m', lists, ht, hindex, hlen⟩ := twoPages_taken le_rfl (by decide)
  have hpages := ht.length
  refine ⟨p, pages, m', lists, ht.wellFormed, hpages, hlen, ?_⟩
  have hne : pages ≠ [] := by
    rintro rfl
    simp at hpages
  have hreleased := (freePages_released_iff ht.wellFormed.chains 0 hne ht.chain ht.nodup
    (ht.page (freeImage_wellFormed (by decide) (by decide)))).2 (by
      rw [hindex]
      intro hnil
      simp [hnil] at hlen)
  rwa [hindex, hpages] at hreleased

/-- Both pages are given back to the list they have left empty. -/
theorem freePages_not_released : ∃ p pages m' lists,
    WellFormed m' lists ∧ lists 1 = [] ∧ releaseIndex m' 0 = 1 ∧ pages.length = 2 ∧
      Segment (pageLink m') p pages offsetNull ∧ (∀ q ∈ pages, IsPage q ∧ q ∉ freeOf lists) ∧
      ¬ Released m' 1 (lists 1) pages (freePages m' 0 (p + 4096) 2).1 := by
  obtain ⟨p, pages, m', lists, ht, hindex, hlen⟩ := twoPages_taken (by decide) le_rfl
  have hpages := ht.length
  have hpage := ht.page (freeImage_wellFormed (by decide) (by decide))
  have hnil : lists 1 = [] := List.eq_nil_of_length_eq_zero hlen
  refine ⟨p, pages, m', lists, ht.wellFormed, hnil, hindex, hpages, ht.chain, hpage, ?_⟩
  obtain ⟨ys, y, rfl⟩ : ∃ ys y, pages = ys ++ [y] := by
    refine ⟨_, _, (List.dropLast_append_getLast (l := pages) ?_).symm⟩
    rintro rfl
    simp at hpages
  have hnot := ht.wellFormed.chains.not_released 0 ht.chain (fun q hq => (hpage q hq).1)
    (by rw [hindex, hnil])
  rw [hindex, hpages] at hnot
  rwa [hnil]

end Atfs
