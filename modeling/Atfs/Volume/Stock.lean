import Atfs.Gc.Trigger
import Atfs.Inode.Supply
import Atfs.Inode.Lifecycle
import Atfs.Volume.Alloc
import Atfs.Volume.Guard
import Atfs.Volume.Listing

/-!
# Inodes as long as there are pages

The repository's allocator, where it leaves the inode tables. With 19 pages to spare on every local
list `alloc_atfs_inode` returns, and of the pages in use it writes only those with inodes in them.
If no free page has counts on it, none becomes a log that counts entries it does not have.
-/

namespace Atfs

open ByteMemory LinkedChain

/-! ## The allocator -/

open Classical in
/-- The repository's allocator, where it keeps the contract and leaves the inode tables. -/
noncomputable def volumeAllocator : PageAllocator where
  alloc := tableAllocator.alloc
  free m cpu node n :=
    if Set.EqOn (keptFree m cpu node n).1 m tableBytes then keptFree m cpu node n else (m, cpu)
  Rep := HoldsPages
  rep_page := pageAllocator.rep_page
  rep_congr := pageAllocator.rep_congr
  alloc_spec := tableAllocator.alloc_spec
  free_spec := by
    intro m F cpu p l hF hc hne hfree
    split_ifs with h
    · exact pageAllocator.free_spec hF hc hne hfree
    · exact ⟨F, hF, fun q hq => .inl hq, .refl _ _⟩

theorem volumeAllocator_alloc : volumeAllocator.alloc = tableAllocator.alloc := by
  rw [volumeAllocator]

theorem volumeAllocator_rep : volumeAllocator.Rep = HoldsPages := by rw [volumeAllocator]

theorem volumeAllocator_tablesApart : TablesApart volumeAllocator where
  alloc := by
    intro m F cpu n node m' cpu' hF hn h
    rw [volumeAllocator_rep, ← tableAllocator_rep] at hF
    rw [volumeAllocator_alloc] at h
    exact tableAllocator_keepsTables.alloc hF hn h
  rep := by
    intro m m' F hF heq
    rw [volumeAllocator_rep, ← tableAllocator_rep] at hF ⊢
    exact tableAllocator_keepsTables.rep hF heq
  free := by
    intro m F cpu p l hF hc hne hfree
    rw [volumeAllocator]
    simp only
    split_ifs with h
    · exact h
    · exact Set.eqOn_refl _ _

/-- Linking pages into a list leaves the inode tables. -/
theorem volumeAllocator_follows : volumeAllocator.Follows where
  rep := volumeAllocator_rep
  alloc := by
    intro m lists counts k currentCpu h hk _ hkc hle
    rw [volumeAllocator_alloc]
    exact tableAllocator_alloc currentCpu h hk hkc hle
  free := by
    intro m lists counts p l currentCpu h hne hchain hl hfree
    obtain ⟨-, -, -, hframe⟩ := h.freePages hne hchain hl hfree
    have htables : Set.EqOn (freePages m currentCpu (p + 4096) l.length).1 m tableBytes := by
      refine hframe.eqOn (Set.disjoint_left.2 ?_)
      rintro a ⟨q, hq, ha⟩ hc
      have hpage : IsPage q := by
        rcases hq with ⟨i, hi, hq⟩ | hq
        · exact (h.page i hi q hq).1
        · exact hchain.page q hq
      have := hpage.bounds
      rw [mem_linkBytes] at ha
      rw [tableBytes, Set.mem_Ico] at hc
      omega
    rw [volumeAllocator]
    simp only
    rw [keptFree_eq h hne, if_pos htables]

section Stock

variable {F : Set Nat} {s : State} {n k x p : Nat}

/-- The free pages have no counts on them, and the lists have room for `n` of them. -/
structure Spare (m : Memory) (F : Set Nat) (n : Nat) : Prop where
  stocked : Stocked volumeAllocator m F n
  clean : ∀ T ∈ F, counters m T = ⟨0, 0, 0, 0⟩

/-- Writes that reach neither the page lists nor the free pages. -/
theorem Spare.frame {m m' : Memory} {W : Set Nat} (h : Spare m F n) (hm : ChangesOnly W m m')
    (hlists : Disjoint W pageListBytes) (hpages : ∀ T ∈ F, Disjoint W (pageBytes T)) :
    Spare m' F n := by
  refine ⟨h.stocked.congr_nodes volumeAllocator_follows (hm.eqOn hlists) fun q hq =>
    (hm.eqOn (hpages q hq)).mono fun a ha => ?_, fun T hT => ?_⟩
  · rw [nodeWords, Set.mem_Ico] at ha
    rw [mem_pageBytes]
    omega
  · refine (counters_congr ((hm.eqOn (hpages T hT)).mono fun a ha => ?_)).trans (h.clean T hT)
    rw [Set.mem_Ico] at ha
    rw [mem_pageBytes]
    omega

/-- Handing out the head of a table leaves the pages. -/
theorem Spare.popAtfsInode {i c : Nat} (h : Spare s.mem F n) (hi : i < gCpuNums) (hin : InodeIn x p)
    (hpF : p ∉ F) (hhead : AllocatorList.head.get s.mem (getAtfsInodeTableAddr i) = x)
    (hcount : AllocatorList.count.get s.mem (getAtfsInodeTableAddr i) = c + 1) :
    ∃ t, Atfs.popAtfsInode s (getAtfsInodeTableAddr i) = (x, t) ∧ Spare t.mem F n := by
  have hpage : ∀ q ∈ F, IsPage q := fun q hq => volumeAllocator.rep_page h.stocked.rep q hq
  obtain ⟨t, hpop, hstock, hframe⟩ := h.stocked.popAtfsInode volumeAllocator_follows hi hin hpF
    hhead hcount
  refine ⟨t, hpop, hstock, fun T hT => (counters_congr (hframe.eqOn ?_)).trans (h.clean T hT)⟩
  refine Set.disjoint_union_left.2 ⟨?_, ?_⟩
  · have := (hpage T hT).bounds
    refine Set.disjoint_left.2 fun a ha hc => ?_
    rw [tableBytes, Set.mem_Ico] at ha
    rw [Set.mem_Ico] at hc
    omega
  · refine (hin.disjoint_page (hpage T hT) fun hc => hpF (hc ▸ hT)).mono_right fun a ha => ?_
    rw [Set.mem_Ico] at ha
    rw [mem_pageBytes]
    omega

end Stock

/-! ## Making inodes -/

/-- If the free pages have no counts on them, those that become logs of new inodes have none. -/
theorem cleanAlloc {A : PageAllocator} {F : Set Nat} {s : State} (hA : KeepsTables A)
    (hF : A.Rep s.mem F) (hclean : ∀ T ∈ F, counters s.mem T = ⟨0, 0, 0, 0⟩) : CleanAlloc A s := by
  intro _ node s₁ halloc j hj s₂ r hrounds node' m cpu halloc'
  obtain ⟨p, l, F₁, rfl, hlen, hall⟩ := PageAllocator.allocFreePages_spec
    (s := { s with currentCpu := (getCpuid s.currentCpu).2 }) hF (by decide) halloc
  obtain ⟨q, rfl⟩ : ∃ q, l = [q] := List.length_eq_one_iff.1 hlen
  obtain rfl : p = q := hall.chain.chain.head_eq
  have hp : IsPage p := hall.chain.page p (by simp)
  have hb := hp.bounds
  have hpF : p ∉ F₁ := fun hc => (hall.rest p hc).2 (by simp)
  have hsub : F₁ ⊆ F := fun q hq => (hall.rest q hq).1
  have hoff : ListNode.offset.get s₁.mem (p + 4096) = p := hall.chain.offset p (by simp)
  obtain ⟨F₂, hF₂, hsub₂, hframe, -⟩ := fillInodes_spec hA hp hpF (by omega) hall.rep hoff hrounds
  have hoff₂ : ListNode.offset.get s₂.mem (p + 4096) = p :=
    (offset_of_fillBytes (A.rep_page hall.rep) hp hpF hframe).trans hoff
  have hinode : addU64 (ListNode.offset.get s₂.mem (p + 4096)) (j * sizeofAtfsInode) = p +
      216 * j := by
    rw [hoff₂, show sizeofAtfsInode = 216 from rfl, addU64_of_lt (by omega), Nat.mul_comm]
  have hin : InodeIn (p + 216 * j) p :=
    ⟨hp, by omega, by rw [show sizeofAtfsInode = 216 from rfl]; omega⟩
  -- the page is one of those that were free before
  rw [hinode] at halloc'
  have hwords : ChangesOnly (inodeBytes (p + 216 * j)) s₂.mem (inodeCleared s₂.mem (p + 216 * j)) :=
    (((AtfsInode.changesOnly _ _ _ _).trans (AtfsInode.changesOnly _ _ _ _)).trans
      (AtfsInode.changesOnly _ _ _ _)).trans (AtfsInode.changesOnly _ _ _ _)
  have hrep := hin.rep_congr hF₂ (fun hc => hpF (hsub₂ hc)) hwords
  obtain ⟨T, l, -, rfl, hchain, hlen, hfresh, -⟩ := A.alloc_spec hrep le_rfl halloc'
  obtain ⟨q, rfl⟩ : ∃ q, l = [q] := List.length_eq_one_iff.1 hlen
  obtain rfl : T = q := hchain.chain.head_eq
  have hT : T ∈ F₁ := hsub₂ (hfresh T (by simp))
  have hTpage : IsPage T := A.rep_page hall.rep T hT
  rw [Nat.add_sub_cancel, counters_of_allocatorBytes (W := bodyBytes p) (A.rep_page hall.rep) hTpage
    (hframe.mono (Set.union_subset_union_left _ Set.sdiff_subset)) ?_,
    counters_of_allocatorBytes (W := ∅) (A.rep_page hF) hTpage
    (hall.frame.mono Set.subset_union_left)
      (Set.empty_disjoint _)]
  · exact hclean T (hsub hT)
  · refine Set.disjoint_left.2 fun a ha hc => ?_
    have hne : p ≠ T := fun h => hpF (h ▸ hT)
    have := hp.apart hTpage hne
    rw [mem_bodyBytes] at ha
    rw [mem_pageBytes] at hc
    omega

/-- The log of the inode is one page with no entry in it. -/
structure EmptyLog (m : Memory) (x : Nat) : Prop where
  tail : AtfsInode.logTail.get m x = AtfsInode.logHead.get m x
  page : IsPage (AtfsInode.logHead.get m x)

theorem EmptyLog.congr {m m' : Memory} {x : Nat} (h : EmptyLog m x)
    (htail : AtfsInode.logTail.get m' x = AtfsInode.logTail.get m x)
    (hhead : AtfsInode.logHead.get m' x = AtfsInode.logHead.get m x) : EmptyLog m' x :=
  ⟨(htail.trans h.tail).trans hhead.symm, hhead ▸ h.page⟩

/-- The collector has nothing to do there. -/
theorem EmptyLog.gcInode {A : PageAllocator} {s : State} {x : Nat} (h : EmptyLog s.mem x)
    (fuel : Nat) :
    Atfs.gcInode A x (fuel + 1) s = .ok s := by
  rw [Atfs.gcInode, gcLoop, h.tail, h.page.logPageOff_eq (by rw [mem_pageBytes]; omega),
    if_neg (not_not.2 rfl)]

/-- The page at the start of the free space. -/
theorem isPage_firstPage : IsPage getFreeSpaceBaseAddr :=
  ⟨0, by rw [nvmFreeNumPages_eq]; decide, by rw [getFreeSpaceBaseAddr_eq, pageOff_eq]⟩

/-- The collector looks at none of the words that no file has. -/
theorem gcTaskThread_side {m m' : Memory} {c : AccessCounters}
    (hm : ∀ a, a ∉ Set.Iio 114688 → (∀ x, 114688 ≤ x → a ∉ sideWords x) → a < 118784 → m' a = m a) :
    gcTaskThread m' c = gcTaskThread m c := by
  refine gcTaskThread_congr fun a ha => ?_
  rw [getFreeSpaceBaseAddr_eq, Set.mem_Ico] at ha
  refine hm a (by rw [Set.mem_Iio]; omega) (fun x hx hc => ?_) (by omega)
  rcases hc with hc | hc
  · rw [Field.bytes, AtfsInode.fd_off, AtfsInode.fd_size, Set.mem_Ico] at hc
    omega
  · rw [Set.mem_Ico] at hc
    omega

theorem gcTaskThread_popAtfsInode {s : State} {i x p : Nat} (hi : i < gCpuNums) (hin : InodeIn x p)
    (hhead : AllocatorList.head.get s.mem (getAtfsInodeTableAddr i) = x) (c : AccessCounters) :
    gcTaskThread (popAtfsInode s (getAtfsInodeTableAddr i)).2.mem c = gcTaskThread s.mem c := by
  refine gcTaskThread_side fun a hlow hword _ => Volume.popAtfsInode_frame hi hin hhead a ?_
  rintro (hc | hc)
  · rw [tableBytes, Set.mem_Ico] at hc
    exact hlow (show a < 114688 by omega)
  · exact hword x (by have := hin.bounds; omega) hc

namespace Volume

section Stock

variable {A : PageAllocator} {F : Set Nat} {logs : Nat → FileLog} {v : Volume}
  {tables : Nat → List Nat} {handed : List Nat} {n : Nat}

theorem SideWrite.gcTaskThread {s : State} (hs : v.SideWrite A s) (h : v.Sound A F logs)
    (c : AccessCounters) :
    gcTaskThread s.mem c = Atfs.gcTaskThread v.state.mem c := by
  refine gcTaskThread_side fun a hlow hword hlt => hs.frame a ?_
  rintro ((hc | ⟨p, hp, hc⟩) | ⟨x, hx, hc⟩)
  · exact hlow hc
  · have := (h.home p hp).1.bounds
    omega
  · exact hword x (by have := (h.log x hx).inodeIn.bounds; omega) hc

theorem SideWrite.emptyLog {s : State} {x : Nat} (hs : v.SideWrite A s) (h : v.Sound A F logs)
    (hx : x ∈ v.files) (hempty : EmptyLog v.state.mem x) : EmptyLog s.mem x :=
  hempty.congr (hs.word h hx (by simp)) (hs.word h hx (by simp))

/-- Writing to the list leaves the free pages. -/
theorem Sound.spare_listed {m : Memory} (h : v.Sound A F logs) (hspare : Spare v.state.mem F n)
    (hm : ChangesOnly (listedBytes v.files) v.state.mem m) : Spare m F n := by
  have hpage : ∀ q ∈ F, IsPage q := fun q hq => volumeAllocator.rep_page hspare.stocked.rep q hq
  have hinode {x a : Nat} (ha : a ∈ AtfsInode.fd.bytes x ∪ AtfsInode.lNode.bytes x) :
      a ∈ inodeBytes x := by
    simp only [Field.bytes, AtfsInode.fd_off, AtfsInode.fd_size, AtfsInode.lNode_off,
      AtfsInode.lNode_size, Set.mem_union, Set.mem_Ico] at ha
    rw [inodeBytes, Set.mem_Ico]
    omega
  refine hspare.frame hm (Set.disjoint_left.2 ?_) fun T hT => Set.disjoint_left.2 ?_
  · rintro a (ha | ⟨x, hx, ha⟩) hc
    · rw [Set.mem_Ico] at ha
      rw [pageListBytes, Set.mem_Ico] at hc
      omega
    · have := (h.log x hx).inodeIn.bounds
      have ha := hinode ha
      rw [inodeBytes, Set.mem_Ico] at ha
      rw [pageListBytes, Set.mem_Ico] at hc
      omega
  · rintro a (ha | ⟨x, hx, ha⟩) hc
    · have := (hpage T hT).bounds
      rw [Set.mem_Ico] at ha
      rw [mem_pageBytes] at hc
      omega
    · have hne : T ≠ (logs x).home := fun hT' => (h.home _ (h.homes x hx)).2.1 (hT' ▸ hT)
      exact Set.disjoint_left.1 ((h.log x hx).inodeIn.disjoint_page (hpage T hT) hne) (hinode ha) hc

/-- With 19 pages on every list `alloc_atfs_inode` returns. An inode that it makes has an empty log,
and the collector decides as before if the first page was not free. -/
theorem Sound.allocAtfsInode_spare (h : v.Sound volumeAllocator F logs)
    (ht : v.Tabled tables handed) (hspare : Spare v.state.mem F (n + 18 + 1)) :
    ∃ x t F', allocAtfsInode volumeAllocator v.state = .ok (x, t) ∧ Spare t.mem F' n ∧ F' ⊆ F ∧
      (tables (getCpuid v.state.currentCpu).1 = [] → EmptyLog t.mem x) ∧
      (getFreeSpaceBaseAddr ∉ F → ∀ c, gcTaskThread t.mem c = gcTaskThread v.state.mem c) := by
  have hA := volumeAllocator_tablesApart.toKeepsTables
  have hi := getCpuid_lt v.state.currentCpu
  rcases hcpu : getCpuid v.state.currentCpu with ⟨i, currentCpu⟩
  rw [hcpu] at hi
  have hholds := ht.holds i hi
  simp only [allocAtfsInode, hcpu]
  cases hnil : tables i with
  | cons x rest =>
    rw [hnil] at hholds
    have hfile : x ∈ v.files := ht.mem_files hi (hnil ▸ List.mem_cons_self)
    have hin := (h.log x hfile).inodeIn
    obtain ⟨t, hpop, hspare'⟩ := Spare.popAtfsInode (s := { v.state with currentCpu }) hspare hi hin
      (h.home _ (h.homes x hfile)).2.1 hholds.chain.head_eq hholds.count
    have hcount : AllocatorList.count.get v.state.mem (getAtfsInodeTableAddr i) ≠ 0 := by
      rw [hholds.count]
      exact Nat.succ_ne_zero _
    have htask := gcTaskThread_popAtfsInode (s := { v.state with currentCpu }) hi hin
      hholds.chain.head_eq
    rw [hpop] at htask
    rw [if_neg hcount]
    exact ⟨x, t, F, congrArg Except.ok hpop, ⟨hspare'.stocked.mono (by omega), hspare'.clean⟩,
      subset_rfl, fun hc => absurd hc (List.cons_ne_nil _ _), fun _ => htask⟩
  | nil =>
    rw [hnil] at hholds
    obtain ⟨t₁, F₁, p, hfill, hstock, hsub, hp, hpF, hframe⟩ :=
      Stocked.fillAtfsInodeList (s := { v.state with currentCpu }) hspare.stocked
        volumeAllocator_follows hA hi
    obtain ⟨F₂, q, hrep, -, hq, hqF, hheld, -, hkeep, hfilled, -⟩ :=
      fillAtfsInodeList_spec (s := { v.state with currentCpu }) (t := t₁) hA hi h.rep hfill
    obtain rfl := volumeAllocator_follows.rep_unique hstock.rep hrep
    have hpage : ∀ r ∈ F, IsPage r := fun r hr => volumeAllocator.rep_page h.rep r hr
    have hspare₁ : Spare t₁.mem F₁ n := by
      refine ⟨hstock, fun T hT => ?_⟩
      have hne : p ≠ T := fun hc => hpF (hc ▸ hT)
      refine (counters_of_allocatorBytes hpage (hpage T (hsub hT)) hframe ?_).trans
        (hspare.clean T (hsub hT))
      refine Set.disjoint_left.2 fun a ha hc => ?_
      have := hp.apart (hpage T (hsub hT)) hne
      rw [mem_bodyBytes] at ha
      rw [mem_pageBytes] at hc
      omega
    -- the inode is the one in the last place of the page
    have hin : InodeIn (q + 216 * 17) q :=
      ⟨hpage q hq, by omega, by rw [show sizeofAtfsInode = 216 from rfl]; omega⟩
    have hhead : AllocatorList.head.get t₁.mem (getAtfsInodeTableAddr i) = q + 216 * 17 := by
      have hchain := hheld.chain
      rw [pageInodes_succ] at hchain
      exact hchain.head_eq
    obtain ⟨t, hpop, hspare'⟩ := hspare₁.popAtfsInode hi hin hqF hhead hheld.count
    have hcount : AllocatorList.count.get v.state.mem (getAtfsInodeTableAddr i) = 0 := hholds.count
    have hmem : q + 216 * 17 ∈ pageInodes q 18 := by
      rw [pageInodes_succ]
      exact List.mem_cons_self
    have hwords := popAtfsInode_words hi hin hhead hin (.inl rfl)
    rw [hpop] at hwords
    rw [if_pos hcount]
    have htask := gcTaskThread_popAtfsInode hi hin hhead
    rw [hpop] at htask
    refine ⟨_, t, F₁, bind_eq_ok.2 ⟨t₁, hfill, congrArg Except.ok hpop⟩, hspare', hsub, fun _ => ?_,
      fun hnot c => ?_⟩
    · refine EmptyLog.congr ⟨(hfilled.new _ hmem).logTail, hpage _ (hfilled.log _ hmem).1.1⟩ ?_ ?_
      · exact fileWord_congr hwords AtfsInode.logTail (by simp)
      · exact fileWord_congr hwords AtfsInode.logHead (by simp)
    · refine (htask c).trans
        (gcTaskThread_congr ((hkeep _ isPage_firstPage hnot).mono fun a ha => ?_))
      rw [Set.mem_Ico] at ha
      rw [mem_pageBytes]
      omega

end Stock

end Volume

end Atfs
