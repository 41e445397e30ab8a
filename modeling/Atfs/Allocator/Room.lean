import Atfs.Allocator.Release
import Atfs.Allocator.Supply

/-!
# Room on the local lists

A local list with pages enough serves a request as it stands, and a list with a head takes
back what is released. An allocator that follows the lists there lasts for as many pages as
the shortest local list has.
-/

namespace Atfs

open ByteMemory LinkedChain

/-- Every local list has at least `n` pages by its count, and a list that pages may be
released to has a head. -/
structure Room (lists : Nat → List Nat) (counts : Nat → Nat) (n : Nat) : Prop where
  le_counts : ∀ i, 1 ≤ i → i ≤ gCpuNums → n ≤ counts i
  counts_le : ∀ i, 1 ≤ i → i ≤ gCpuNums → counts i ≤ (lists i).length
  overflow : ∀ i, 1 ≤ i → i ≤ gCpuNums → counts i ≤ fillLocalPageListMax ∨ lists 0 ≠ []

/-- The lists of memory `m` have room for requests of `n` pages. -/
def Roomy (n : Nat) (m : Memory) : Prop :=
  n = 0 ∨ ∃ lists counts, Linked m lists counts ∧ Room lists counts n

section Room

variable {m m' : Memory} {lists : Nat → List Nat} {counts : Nat → Nat} {currentCpu k n : Nat}
  {F : Set Nat}

theorem Room.mono (h : Room lists counts n) (hk : k ≤ n) : Room lists counts k :=
  ⟨fun i hi hi' => hk.trans (h.le_counts i hi hi'), h.counts_le, h.overflow⟩

/-- The list that pages are released to has a head. -/
theorem Room.releaseIndex_ne_nil (h : Room lists counts n) (hn : 1 ≤ n)
    (hm : Linked m lists counts) : lists (releaseIndex m currentCpu) ≠ [] := by
  have hi := localIndex_bounds currentCpu
  have hcount := (hm.rep _ hi.2).count
  have hle := h.le_counts _ hi.1 hi.2
  have hlen := h.counts_le _ hi.1 hi.2
  rw [releaseIndex, hcount]
  split_ifs with hover
  · exact (h.overflow _ hi.1 hi.2).resolve_left (by omega)
  · intro hnil
    rw [hnil, List.length_nil] at hlen
    omega

/-- Pages that come in are room too. -/
theorem Room.put (h : Room lists counts n) {j : Nat} {l l' : List Nat}
    (hperm : l'.Perm (lists j ++ l)) : Room (Function.update lists j l') counts n := by
  have hlen : (lists j).length ≤ l'.length := by
    rw [hperm.length_eq, List.length_append]
    exact Nat.le_add_right _ _
  refine ⟨h.le_counts, fun i hi hi' => (h.counts_le i hi hi').trans ?_, fun i hi hi' => ?_⟩
  · by_cases hij : i = j
    · rw [hij, Function.update_self]
      exact hlen
    · rw [Function.update_of_ne hij]
  · refine (h.overflow i hi hi').imp_right fun hne => ?_
    by_cases hj : 0 = j
    · subst hj
      rw [Function.update_self]
      exact List.ne_nil_of_length_pos ((List.length_pos_of_ne_nil hne).trans_le hlen)
    · rwa [Function.update_of_ne hj]

/-- Cutting pages off a local list. -/
theorem Room.cut (h : Room lists counts (n + k)) {i : Nat} (hi : 1 ≤ i ∧ i ≤ gCpuNums) :
    Room (Function.update (Function.update lists 0 (lists 0)) i ((lists i).drop k))
      (Function.update (Function.update counts 0 (counts 0)) i (counts i - k)) n := by
  rw [Function.update_eq_self, Function.update_eq_self]
  have hle := h.le_counts i hi.1 hi.2
  have hlen := h.counts_le i hi.1 hi.2
  have hover := h.overflow i hi.1 hi.2
  have hzero : Function.update lists i ((lists i).drop k) 0 = lists 0 :=
    Function.update_of_ne (by omega) _ _
  refine ⟨fun j hj hj' => ?_, fun j hj hj' => ?_, fun j hj hj' => ?_⟩
  · by_cases hji : j = i
    · rw [hji, Function.update_self]
      omega
    · rw [Function.update_of_ne hji]
      exact (Nat.le_add_right n k).trans (h.le_counts j hj hj')
  · by_cases hji : j = i
    · rw [hji, Function.update_self, Function.update_self, List.length_drop]
      omega
    · rw [Function.update_of_ne hji, Function.update_of_ne hji]
      exact h.counts_le j hj hj'
  · rw [hzero]
    by_cases hji : j = i
    · rw [hji, Function.update_self]
      exact hover.imp_left fun hc => by omega
    · rw [Function.update_of_ne hji]
      exact h.overflow j hj hj'

theorem Roomy.mono (h : Roomy n m) (hk : k ≤ n) : Roomy k m := by
  rcases h with rfl | ⟨lists, counts, hm, hroom⟩
  · exact .inl (Nat.le_zero.1 hk)
  · exact .inr ⟨lists, counts, hm, hroom.mono hk⟩

/-- The bodies of the free pages do not matter. -/
theorem Roomy.congr_nodes (h : Roomy n m) (hF : HoldsPages m F) (heq : Set.EqOn m' m pageListBytes)
    (hnode : ∀ p ∈ F, Set.EqOn m' m (nodeWords p)) : Roomy n m' := by
  refine h.imp_right ?_
  rintro ⟨lists, counts, hm, hroom⟩
  obtain ⟨lists', hlists', rfl⟩ := hF
  rw [hlists'.freeOf_eq hm.chains] at hnode
  exact ⟨lists, counts, hm.congr_nodes heq hnode, hroom⟩

theorem Roomy.congr (h : Roomy n m) (hF : HoldsPages m F)
    (heq : Set.EqOn m' m (metadata ∪ bytesOf F)) : Roomy n m' := by
  have heq' := heq.mono (pageListBytes_subset _)
  exact h.congr_nodes hF (heq'.mono Set.subset_union_left)
    fun p hp _ ha => heq' (.inr ⟨p, hp, nodeWords_subset p ha⟩)

/-- Well-formed lists with `n` pages on every local list. -/
theorem WellFormed.roomy (h : WellFormed m lists)
    (hlen : ∀ i, 1 ≤ i → i ≤ gCpuNums → n ≤ (lists i).length)
    (hover : ∀ i, 1 ≤ i → i ≤ gCpuNums →
      (lists i).length ≤ fillLocalPageListMax ∨ lists 0 ≠ []) : Roomy n m :=
  .inr ⟨lists, _, h.linked, hlen, fun _ _ _ => le_rfl, hover⟩

/-- The free pages in blocks of `L`. -/
theorem freeImage_roomy {G L : Nat} {body : Nat → Nat → UInt8} (hL : 1 ≤ L)
    (hL' : L ≤ fillLocalPageListMax) (hN : G + gCpuNums * L ≤ nvmFreeNumPages) :
    Roomy L (freeImage G L body).mem := by
  have hlen (i : Nat) (hi : 1 ≤ i) : (freeLists G L i).length = L :=
    length_freeLists (Nat.pos_iff_ne_zero.1 hi)
  exact (freeImage_wellFormed hL hN).roomy (fun i hi _ => (hlen i hi).ge)
    fun i hi _ => .inl ((hlen i hi).trans_le hL')

end Room

/-! ## Allocators that follow the lists -/

/-- Where a request needs no refill, or a release meets a list with a head, `A` is
`alloc_free_pages` and `free_pages`. -/
structure PageAllocator.Follows (A : PageAllocator) : Prop where
  rep : A.Rep = HoldsPages
  alloc : ∀ {m lists counts k} (currentCpu : Nat), Linked m lists counts → 1 ≤ k →
    k ≤ maxNumPagePerEntry → k ≤ counts (localIndex currentCpu) →
    counts (localIndex currentCpu) ≤ (lists (localIndex currentCpu)).length →
    A.alloc m currentCpu k = Atfs.allocFreePages m currentCpu k
  free : ∀ {m lists counts p l} (currentCpu : Nat), Linked m lists counts →
    lists (releaseIndex m currentCpu) ≠ [] → PageChain m p l → l ≠ [] →
    (∀ q ∈ l, q ∉ freeOf lists) →
    A.free m currentCpu (p + 4096) l.length = Atfs.freePages m currentCpu (p + 4096) l.length

/-- The pages are cut off a local list. -/
theorem Linked.allocLocal {m : Memory} {lists : Nat → List Nat} {counts : Nat → Nat}
    {currentCpu k : Nat} (h : Linked m lists counts) (hk : 1 ≤ k)
    (hkc : k ≤ counts (localIndex currentCpu))
    (hle : counts (localIndex currentCpu) ≤ (lists (localIndex currentCpu)).length) :
    ∃ r, allocFreePages m currentCpu k = some r ∧ AllocKeeps m k r ∧
      Linked r.2.1
        (Function.update (Function.update lists 0 (lists 0)) (localIndex currentCpu)
          ((lists (localIndex currentCpu)).drop k))
        (Function.update (Function.update counts 0 (counts 0)) (localIndex currentCpu)
          (counts (localIndex currentCpu) - k)) ∧
      Set.EqOn r.2.1 m (listBytes (localIndex currentCpu)
        {p | p ∈ lists 0 ++ lists (localIndex currentCpu)})ᶜ := by
  have hi := localIndex_bounds currentCpu
  obtain ⟨p, m', halloc, hpair, hseg, heq⟩ := (h.listPair hi).takeLocal hk hkc hle
  have hlinked := h.replace hi hpair (fun q hq => ?_) heq
  · have hlen : ((lists (localIndex currentCpu)).take k).length = k := by
      rw [List.length_take]
      omega
    refine ⟨_, halloc, ?_, hlinked, heq⟩
    exact h.allocKeeps hk hseg hlen ((h.nodup _ hi.2).sublist (List.take_sublist _ _))
      (fun q hq => ⟨_, hi.2, List.mem_of_mem_take hq⟩) hlinked.chains
      (h.freeOf_drop hi (List.Perm.refl _) k) fun a ha => heq fun hc => ha (listBytes_subset hi hc)
  · rcases List.mem_append.1 hq with hq | hq
    · exact List.mem_append_left _ hq
    · exact List.mem_append_right _ (List.mem_of_mem_drop hq)

theorem pageAllocator_follows : pageAllocator.Follows where
  rep := rfl
  alloc := by
    intro m lists counts k currentCpu h hk _ hkc hle
    obtain ⟨r, halloc, hkeeps, -⟩ := h.allocLocal hk hkc hle
    rw [pageAllocator_alloc, keptAlloc_of_keeps halloc hkeeps, halloc]
  free := by
    intro m lists counts p l currentCpu h hne _ _ _
    rw [pageAllocator_free, keptFree_eq h hne]

/-- Room on the lists is a supply. -/
def PageAllocator.Follows.supply {A : PageAllocator} (hA : A.Follows) : A.Supply where
  Has := Roomy
  mono := Roomy.mono
  congr := fun hF h heq => h.congr (hA.rep ▸ hF) heq
  alloc := by
    rintro n k m F currentCpu - hk hk' (hn | ⟨lists, counts, h, hroom⟩)
    · omega
    · have hi := localIndex_bounds currentCpu
      have hkc : k ≤ counts (localIndex currentCpu) :=
        (Nat.le_add_left k n).trans (hroom.le_counts _ hi.1 hi.2)
      have hle := hroom.counts_le _ hi.1 hi.2
      obtain ⟨⟨node, m', currentCpu'⟩, halloc, -, hlinked, -⟩ := h.allocLocal hk hkc hle
      exact ⟨node, m', currentCpu', (hA.alloc currentCpu h hk hk' hkc hle).trans halloc,
        .inr ⟨_, _, hlinked, hroom.cut hi⟩⟩
  free := by
    rintro n m F p l currentCpu hF (rfl | ⟨lists, counts, h, hroom⟩) hchain hl hfree
    · exact .inl rfl
    · rcases Nat.eq_zero_or_pos n with rfl | hn
      · exact .inl rfl
      rw [hA.rep] at hF
      obtain ⟨lists', hlists', rfl⟩ := hF
      rw [hlists'.freeOf_eq h.chains] at hfree
      have hne : lists (releaseIndex m currentCpu) ≠ [] := hroom.releaseIndex_ne_nil hn h
      obtain ⟨l', hperm, hlinked, -⟩ := h.freePages hne hchain hl hfree
      rw [hA.free currentCpu h hne hchain hl hfree]
      exact .inr ⟨_, counts, hlinked, hroom.put hperm⟩

/-- An allocator lasts as long as there is room on its lists. -/
theorem Roomy.lasts {A : PageAllocator} {n : Nat} {m : Memory} (h : Roomy n m) (hA : A.Follows) :
    A.Lasts n m :=
  ⟨hA.supply, h⟩

/-! ## Pages to spare -/

/-- `A` holds the pages `F`, and its lists have room for requests of `n` pages. -/
structure Stocked (A : PageAllocator) (m : Memory) (F : Set Nat) (n : Nat) : Prop where
  rep : A.Rep m F
  roomy : Roomy n m

section Stocked

variable {A : PageAllocator} {m m' : Memory} {F F' : Set Nat} {n k : Nat} {s : State}

/-- The pages such an allocator holds are determined by the memory. -/
theorem PageAllocator.Follows.rep_unique (hA : A.Follows) (h : A.Rep m F) (h' : A.Rep m F') :
    F = F' := by
  rw [hA.rep] at h h'
  obtain ⟨lists, hchains, rfl⟩ := h
  obtain ⟨lists', hchains', rfl⟩ := h'
  exact hchains.freeOf_eq hchains'

theorem Stocked.mono (h : Stocked A m F n) (hk : k ≤ n) : Stocked A m F k :=
  ⟨h.rep, h.roomy.mono hk⟩

theorem Stocked.congr_nodes (h : Stocked A m F n) (hA : A.Follows)
    (heq : Set.EqOn m' m pageListBytes) (hnode : ∀ p ∈ F, Set.EqOn m' m (nodeWords p)) :
    Stocked A m' F n := by
  obtain ⟨hrep, hroomy⟩ := h
  rw [hA.rep] at hrep
  refine ⟨?_, hroomy.congr_nodes hrep heq hnode⟩
  rw [hA.rep]
  obtain ⟨lists, hchains, rfl⟩ := hrep
  exact ⟨lists, hchains.congr_nodes heq hnode, rfl⟩

theorem Stocked.lasts (h : Stocked A m F n) (hA : A.Follows) : A.Lasts n m := h.roomy.lasts hA

/-- A request is served, and what is not asked for stays. -/
theorem Stocked.alloc (h : Stocked A s.mem F (n + k)) (hA : A.Follows) (hk : 1 ≤ k)
    (hk' : k ≤ maxNumPagePerEntry) :
    ∃ node s' F', A.allocFreePages s k = .ok (node, s') ∧ Stocked A s'.mem F' n := by
  obtain ⟨node, s', halloc, hroomy⟩ := hA.supply.allocFreePages h.rep hk hk' h.roomy
  obtain ⟨p, l, F', -, -, hall⟩ := PageAllocator.allocFreePages_spec h.rep hk halloc
  exact ⟨node, s', F', halloc, hall.rep, hroomy⟩

end Stocked

end Atfs
