import Atfs.Inode.Table

/-!
# How long the pages last for inodes

A refill takes a page for its inodes and one for the log of each. With 19 pages `alloc_atfs_inode`
returns.
-/

namespace Atfs

open ByteMemory LinkedChain

section Supply

variable {A : PageAllocator} (S : A.Supply) {F : Set Nat} {s : State} {i n x p : Nat}

/-- The rounds of a refill take a page for every inode. -/
theorem PageAllocator.Supply.fillInodes (hA : KeepsTables A) (hp : IsPage p) (hpF : p ∉ F) {j : Nat}
    (hj : j ≤ 18) (hF : A.Rep s.mem F) (hoff : ListNode.offset.get s.mem (p + 4096) = p)
    (h : S.Has (n + j) s.mem) :
    ∃ s' r, Atfs.fillInodes A (p + 4096) j s = .ok (s', r) ∧ S.Has n s'.mem := by
  induction j generalizing n with
  | zero => exact ⟨s, none, rfl, h⟩
  | succ j ih =>
    obtain ⟨s₁, prev, hrounds, hhas⟩ := ih (n := n + 1) (by omega) (by rwa [Nat.add_right_comm])
    obtain ⟨F₁, hF₁, hsub, hkeep, -⟩ := fillInodes_spec hA hp hpF (by omega) hF hoff hrounds
    have hbounds := hp.bounds
    have hpF₁ : p ∉ F₁ := fun hc => hpF (hsub hc)
    have hoff₁ : ListNode.offset.get s₁.mem (p + 4096) = p :=
      (offset_of_fillBytes (A.rep_page hF) hp hpF hkeep).trans hoff
    have hinode : addU64 (ListNode.offset.get s₁.mem (p + 4096)) (j * sizeofAtfsInode) =
        p + 216 * j := by
      rw [hoff₁, show sizeofAtfsInode = 216 from rfl, addU64_of_lt (by omega), Nat.mul_comm]
    have hin : InodeIn (p + 216 * j) p :=
      ⟨hp, by omega, by rw [show sizeofAtfsInode = 216 from rfl]; omega⟩
    obtain ⟨s₂, hinit, hhas₂⟩ := S.initAtfsInode hF₁ hin hpF₁ hhas
    obtain ⟨f, hnew⟩ := initAtfsInode_spec hF₁ hin hpF₁ hinit
    -- the two words set behind it lie in the page of the inode
    have hwords : ChangesOnly (inodeBytes (p + 216 * j)) s₂.mem
        (AtfsInode.next.set (AtfsInode.inPage.set s₂.mem (p + 216 * j)
          (ListNode.offset.get s₂.mem (p + 4096))) (p + 216 * j) (prev.getD offsetNull)) :=
      (AtfsInode.changesOnly _ _ _ _).trans (AtfsInode.changesOnly _ _ _ _)
    have hround : Atfs.fillInodes A (p + 4096) (j + 1) s = .ok ({ s₂ with
        mem := AtfsInode.next.set (AtfsInode.inPage.set s₂.mem (p + 216 * j)
          (ListNode.offset.get s₂.mem (p + 4096))) (p + 216 * j) (prev.getD offsetNull) },
        some (p + 216 * j)) := by
      rw [Atfs.fillInodes]
      refine bind_eq_ok.2 ⟨_, hrounds, ?_⟩
      simp only [hinode]
      exact bind_eq_ok.2 ⟨_, hinit, rfl⟩
    exact ⟨_, _, hround, S.congr hnew.holds.rep hhas₂ (hwords.eqOn
      (hin.apart (A.rep_page hnew.holds.rep) fun hc => hpF₁ (hnew.sub hc)))⟩

end Supply

section Lasts

variable {A : PageAllocator} {F : Set Nat} {s : State} {i : Nat}

/-- A refill takes a page for the inodes and one for the log of each. -/
theorem PageAllocator.Lasts.fillAtfsInodeList (h : A.Lasts 19 s.mem) (hA : KeepsTables A)
    (hF : A.Rep s.mem F) : ∃ t, Atfs.fillAtfsInodeList A s (getAtfsInodeTableAddr i) = .ok t := by
  obtain ⟨S, hS⟩ := h
  obtain ⟨node, s₁, halloc, hhas⟩ := S.allocFreePages (n := 18) hF le_rfl (by decide) hS
  obtain ⟨p, l, F₁, rfl, hlen, hall⟩ := PageAllocator.allocFreePages_spec hF le_rfl halloc
  obtain ⟨q, rfl⟩ : ∃ q, l = [q] := List.length_eq_one_iff.1 hlen
  obtain rfl : p = q := hall.chain.chain.head_eq
  obtain ⟨s₂, r, hrounds, -⟩ := S.fillInodes (n := 0) hA (hall.chain.page p (by simp))
    (fun hc => (hall.rest p hc).2 (by simp)) le_rfl hall.rep (hall.chain.offset p (by simp)) hhas
  rw [Atfs.fillAtfsInodeList]
  exact ⟨_, bind_eq_ok.2 ⟨_, halloc, bind_eq_ok.2 ⟨_, hrounds, rfl⟩⟩⟩

/-- With 19 pages there is an inode. -/
theorem PageAllocator.Lasts.allocAtfsInode (h : A.Lasts 19 s.mem) (hA : KeepsTables A)
    (hF : A.Rep s.mem F) : ∃ r, Atfs.allocAtfsInode A s = .ok r := by
  rcases hcpu : getCpuid s.currentCpu with ⟨cpuid, currentCpu⟩
  simp only [Atfs.allocAtfsInode, hcpu]
  split_ifs with hzero
  · obtain ⟨t, hfill⟩ := PageAllocator.Lasts.fillAtfsInodeList
      (s := { s with currentCpu }) (i := cpuid) h hA hF
    exact ⟨_, bind_eq_ok.2 ⟨t, hfill, rfl⟩⟩
  · exact ⟨_, rfl⟩

end Lasts

section Stocked

variable {A : PageAllocator} {F : Set Nat} {s : State} {i c n x p : Nat}

/-- A refill leaves all but 19 pages. It writes to the page it takes and to what the allocator
holds. -/
theorem Stocked.fillAtfsInodeList (h : Stocked A s.mem F (n + 18 + 1)) (hA : A.Follows)
    (hkeep : KeepsTables A) (hi : i < gCpuNums) :
    ∃ t F' p, Atfs.fillAtfsInodeList A s (getAtfsInodeTableAddr i) = .ok t ∧
      Stocked A t.mem F' n ∧ F' ⊆ F ∧ IsPage p ∧ p ∉ F' ∧
      ChangesOnly (allocatorBytes F ∪ bodyBytes p) s.mem t.mem := by
  obtain ⟨node, s₁, F₁, halloc, hstock₁⟩ := h.alloc hA le_rfl (by decide)
  obtain ⟨p, l, F₂, rfl, hlen, hall⟩ := PageAllocator.allocFreePages_spec h.rep le_rfl halloc
  obtain ⟨q, rfl⟩ : ∃ q, l = [q] := List.length_eq_one_iff.1 hlen
  obtain rfl : p = q := hall.chain.chain.head_eq
  obtain rfl := hA.rep_unique hstock₁.rep hall.rep
  have hp : IsPage p := hall.chain.page p (by simp)
  have hpF : p ∉ F₁ := fun hc => (hall.rest p hc).2 (by simp)
  have hsub₁ : F₁ ⊆ F := fun q hq => (hall.rest q hq).1
  have hoff : ListNode.offset.get s₁.mem (p + 4096) = p := hall.chain.offset p (by simp)
  obtain ⟨s₂, r, hrounds, hroomy₂⟩ :=
    hA.supply.fillInodes hkeep hp hpF le_rfl hstock₁.rep hoff hstock₁.roomy
  obtain ⟨F₃, hF₃, hsub, hfilled, -⟩ := fillInodes_spec hkeep hp hpF le_rfl hstock₁.rep hoff hrounds
  -- what is written behind the rounds is the link of the page and the header of the table
  have hlink : ChangesOnly (linkBytes p) s₂.mem
      (if ListNode.nextOffset.get s₂.mem (p + 4096) ≠ offsetNull then
        ListNode.nextOffset.set s₂.mem (p + 4096) offsetNull else s₂.mem) := by
    split_ifs
    · exact changesOnly_setLink _ _ _
    · exact .refl _ _
  obtain ⟨m, hm⟩ : ∃ m, (if ListNode.nextOffset.get s₂.mem (p + 4096) ≠ offsetNull then
      ListNode.nextOffset.set s₂.mem (p + 4096) offsetNull else s₂.mem) = m := ⟨_, rfl⟩
  rw [hm] at hlink
  have hheader := (changesOnly_table hi AllocatorList.head m (r.getD 0)).trans
    (changesOnly_table hi AllocatorList.count _ (atfsInodePerAlloc * (pageSize / sizeofAtfsInode)))
  have hframe := (hlink.mono Set.subset_union_left).trans (hheader.mono Set.subset_union_right)
  rw [Atfs.fillAtfsInodeList]
  refine ⟨_, F₃, p, bind_eq_ok.2 ⟨_, halloc, bind_eq_ok.2 ⟨_, hrounds, by simp only [hm]; rfl⟩⟩, ?_,
    hsub.trans hsub₁, hp, fun hc => hpF (hsub hc), ?_⟩
  · refine Stocked.congr_nodes ⟨hF₃, hroomy₂⟩ hA (fun a ha => hframe a ?_)
      fun q hq a ha => hframe a ?_
    · have := hp.bounds
      rw [pageListBytes, Set.mem_Ico] at ha
      rintro (hc | hc)
      · rw [mem_linkBytes] at hc
        omega
      · rw [tableBytes, Set.mem_Ico] at hc
        omega
    · have hqp : q ≠ p := fun hc => hpF (hsub (hc ▸ hq))
      have hqpage : IsPage q := A.rep_page hF₃ q hq
      have := hqpage.bounds
      have := hqpage.apart hp hqp
      rw [nodeWords, Set.mem_Ico] at ha
      rintro (hc | hc)
      · rw [mem_linkBytes] at hc
        omega
      · rw [tableBytes, Set.mem_Ico] at hc
        omega
  · refine (hall.frame.mono Set.subset_union_left).trans ((hfilled.mono ?_).trans (hframe.mono ?_))
    · exact Set.union_subset_union_left _ (Set.sdiff_subset.trans (allocatorBytes_mono hsub₁))
    · refine (Set.union_subset (fun a ha => .inr ⟨p, hall.fresh p (by simp), ha⟩)
        fun a ha => .inl ?_).trans Set.subset_union_left
      rw [tableBytes, Set.mem_Ico] at ha
      rw [mem_metadata]
      omega

/-- Handing out the head of a table leaves the free pages. -/
theorem Stocked.popAtfsInode (h : Stocked A s.mem F n) (hA : A.Follows) (hi : i < gCpuNums)
    (hin : InodeIn x p) (hpF : p ∉ F)
    (hhead : AllocatorList.head.get s.mem (getAtfsInodeTableAddr i) = x)
    (hcount : AllocatorList.count.get s.mem (getAtfsInodeTableAddr i) = c + 1) :
    ∃ t, Atfs.popAtfsInode s (getAtfsInodeTableAddr i) = (x, t) ∧ Stocked A t.mem F n ∧
      ChangesOnly (tableBytes ∪ inodeBytes x) s.mem t.mem := by
  have hb := hin.bounds
  obtain ⟨t, hpop, hframe, -⟩ := popAtfsInode_spec hi hin hhead hcount
  refine ⟨t, hpop, h.congr_nodes hA (hframe.eqOn (Set.disjoint_left.2 ?_)) fun q hq =>
    hframe.eqOn (Set.disjoint_left.2 ?_), hframe⟩
  · rintro a (ha | ha) hc
    · rw [tableBytes, Set.mem_Ico] at ha
      rw [pageListBytes, Set.mem_Ico] at hc
      omega
    · rw [inodeBytes, Set.mem_Ico] at ha
      rw [pageListBytes, Set.mem_Ico] at hc
      omega
  · have hqpage := A.rep_page h.rep q hq
    have hbounds := hqpage.bounds
    have hne : q ≠ p := fun hc => hpF (hc ▸ hq)
    rintro a (ha | ha) hc
    · rw [tableBytes, Set.mem_Ico] at ha
      rw [nodeWords, Set.mem_Ico] at hc
      omega
    · exact Set.disjoint_left.1 (hin.disjoint_page hqpage hne) ha (nodeWords_subset q hc)

end Stocked

end Atfs
