import Atfs.Inode.Pool
import Atfs.Volume.FileRuns

/-!
# Inodes for a volume

`alloc_atfs_inode` on a volume. If the table of the CPU has no inodes left, a page is taken and an
inode made in every place of it, each with a log of its own. All else that is written are the links
of the inodes and the tables, and these are no part of any file.
-/

namespace Atfs

open ByteMemory LinkedChain LabelledRun

/-- The pages that become the logs of the inodes made in a page have no counts left. -/
def CleanFill (A : PageAllocator) (s : State) (node : Nat) : Prop :=
  ∀ j < 18, ∀ s' r, fillInodes A node j s = .ok (s', r) →
    Volume.Clean A ⟨s', [], []⟩
      (.init (addU64 (ListNode.offset.get s'.mem node) (j * sizeofAtfsInode)))

/-- So do those of the inodes that `alloc_atfs_inode` makes. -/
def CleanAlloc (A : PageAllocator) (s : State) : Prop :=
  AllocatorList.count.get s.mem (getAtfsInodeTableAddr (getCpuid s.currentCpu).1) = 0 →
    ∀ node s', A.allocFreePages { s with currentCpu := (getCpuid s.currentCpu).2 }
      atfsInodePerAlloc =
      .ok (node, s') → CleanFill A s' node

/-- A step that makes inodes or writes beside the files. -/
def FsCall.Makes : FsCall → Prop
  | .home => True
  | .init _ => True
  | .side => True
  | _ => False

theorem FsCall.Makes.stale {c : FsCall} {v : Volume} (h : c.Makes) : v.Stale c := by
  cases c with
  | invalidate => exact absurd h id
  | home | init | side | call | gc => trivial

/-! ## Writing beside the files -/

namespace Volume

section Side

variable {A : PageAllocator} {v : Volume} {m : Memory} {s : State} {x p i : Nat}

/-- The words of an inode that are no part of its file. -/
theorem SideWrite.inode (hp : p ∈ v.homes) (hin : InodeIn x p) (hx : x ∈ v.files)
    (hm : ChangesOnly (sideWords x) v.state.mem m) : v.SideWrite A { v.state with mem := m } where
  frame := hm.mono fun _ ha => .inr ⟨x, hx, ha⟩
  rep _ hF hhomes := hin.rep_congr hF (hhomes p hp) (hm.mono (sideWords_subset x))
  index := rfl
  trace := rfl

theorem SideWrite.tables (hA : KeepsTables A) (hm : ChangesOnly tableBytes v.state.mem m) :
    v.SideWrite A { v.state with mem := m } where
  frame := hm.mono fun a ha => by
    rw [tableBytes, Set.mem_Ico] at ha
    exact .inl (.inl (show a < 114688 by omega))
  rep _ hF _ := hA.rep_tables hF hm
  index := rfl
  trace := rfl

/-- The node of a page that inodes lie in. -/
theorem SideWrite.homeNode (hp : p ∈ v.homes) (hpage : IsPage p)
    (hm : ChangesOnly (linkBytes p) v.state.mem m) : v.SideWrite A { v.state with mem := m } where
  frame := hm.mono fun a ha => by
    rw [mem_linkBytes] at ha
    exact .inl (.inr ⟨p, hp, by omega, by omega⟩)
  rep F hF hhomes := by
    refine A.rep_congr hF (hm.eqOn (Set.disjoint_left.2 fun a ha hc => ?_))
    have hbounds := hpage.bounds
    rw [mem_linkBytes] at ha
    rcases hc with hc | hc
    · rw [mem_metadata] at hc
      omega
    · exact not_mem_bytesOf (A.rep_page hF) hpage (hhomes p hp) (by rw [mem_pageBytes]; omega) hc
  index := rfl
  trace := rfl

theorem SideWrite.cpu (A : PageAllocator) (v : Volume) (currentCpu : Nat) :
    v.SideWrite A { v.state with currentCpu } where
  frame := .refl _ _
  rep _ hF _ := hF
  index := rfl
  trace := rfl

theorem changesOnly_next (m : Memory) (x w : Nat) :
    ChangesOnly (sideWords x) m (AtfsInode.next.set m x w) :=
  (AtfsInode.next.changesOnly_set m x w).mono fun a ha => by
    simp only [Field.bytes, AtfsInode.next_off, AtfsInode.next_size, Set.mem_Ico] at ha
    exact .inr (by rw [Set.mem_Ico]; omega)

theorem changesOnly_inPage (m : Memory) (x w : Nat) :
    ChangesOnly (sideWords x) m (AtfsInode.inPage.set m x w) :=
  (AtfsInode.inPage.changesOnly_set m x w).mono fun a ha => by
    simp only [Field.bytes, AtfsInode.inPage_off, AtfsInode.inPage_size, Set.mem_Ico] at ha
    exact .inr (by rw [Set.mem_Ico]; omega)

/-- What is written when the head of a table is handed out. -/
theorem popAtfsInode_frame (hi : i < gCpuNums) (hin : InodeIn x p)
    (hhead : AllocatorList.head.get s.mem (getAtfsInodeTableAddr i) = x) :
    ChangesOnly (tableBytes ∪ sideWords x) s.mem
      (popAtfsInode s (getAtfsInodeTableAddr i)).2.mem := by
  have hb := hin.bounds
  have htable {m : Memory} (f : Field 64) (w : Nat) :
      ChangesOnly (tableBytes ∪ sideWords x) m (f.set m (getAtfsInodeTableAddr i) w) :=
    (changesOnly_table hi f m w).mono Set.subset_union_left
  simp only [popAtfsInode, hhead, setInodeNext_eq (show x + 80 < 2 ^ 64 by omega)]
  exact ((htable _ _).trans ((changesOnly_next _ _ _).mono Set.subset_union_right)).trans
    (htable _ _)

/-- Handing out the head of a table. -/
theorem SideWrite.pop (hA : KeepsTables A) (hi : i < gCpuNums) (hp : p ∈ v.homes)
    (hin : InodeIn x p) (hx : x ∈ v.files)
    (hhead : AllocatorList.head.get v.state.mem (getAtfsInodeTableAddr i) = x) :
    v.SideWrite A (popAtfsInode v.state (getAtfsInodeTableAddr i)).2 := by
  have hframe := popAtfsInode_frame hi hin hhead
  refine ⟨hframe.mono ?_, fun F hF hhomes => ?_, rfl, rfl⟩
  · rintro a (ha | ha)
    · rw [tableBytes, Set.mem_Ico] at ha
      exact .inl (.inl (show a < 114688 by omega))
    · exact .inr ⟨x, hx, ha⟩
  · exact hA.rep_inode hF hin (hhomes p hp)
      (hframe.mono (Set.union_subset_union_right _ (sideWords_subset x)))

end Side

/-! ## Making inodes -/

section Fill

variable {A : PageAllocator} {R : RadixTree} {F : Set Nat} {logs : Nat → FileLog} {v : Volume}
  {s t : State} {p i j : Nat} {r : Option Nat}

/-- The node of the page still has its offset when inodes have been made in the page. -/
theorem fillInodes_offset (hA : KeepsTables A) (hp : IsPage p) (hpF : p ∉ F) (hj : j ≤ 18)
    {s₀ : State} (hF : A.Rep s₀.mem F) (hoff : ListNode.offset.get s₀.mem (p + 4096) = p)
    (hrun : fillInodes A (p + 4096) j s₀ = .ok (s, r)) :
    ListNode.offset.get s.mem (p + 4096) = p := by
  obtain ⟨-, -, -, hkeep, -⟩ := fillInodes_spec hA hp hpF hj hF hoff hrun
  refine (Field.get_congr fun a ha => hkeep a ?_).trans hoff
  simp only [Field.bytes, ListNode.offset_off, ListNode.offset_size, Set.mem_Ico] at ha
  rintro (hc | hc)
  · exact not_mem_allocatorBytes (A.rep_page hF) hp hpF (by rw [mem_pageBytes]; omega) hc.1
  · rw [mem_bodyBytes] at hc
    omega

/-- The rounds of a refill, each an inode made and linked to the one before. -/
theorem Sound.fillInodes_run (hA : KeepsTables A) (h : v.Sound A F logs) (hp : p ∈ v.homes)
    (hoff : ListNode.offset.get v.state.mem (p + 4096) = p)
    (hnew : ∀ y ∈ v.files, y + 216 ≤ p ∨ p + 4096 ≤ y) (hclean : CleanFill A v.state (p + 4096))
    (hj : j ≤ 18) (hrun : fillInodes A (p + 4096) j v.state = .ok (s, r)) :
    ∃ steps, Run (FsStep A R) v steps ⟨s, v.homes, pageInodes p j ++ v.files⟩ ∧ ∀ q ∈ steps,
      q.2.Makes := by
  obtain ⟨hpage, hpF, -⟩ := h.home p hp
  have hbounds := hpage.bounds
  induction j generalizing s r with
  | zero =>
    rw [fillInodes] at hrun
    obtain ⟨rfl, -⟩ : v.state = s ∧ none = r := by simpa using hrun
    exact ⟨[], .nil, by simp⟩
  | succ j ih =>
    rw [fillInodes] at hrun
    obtain ⟨⟨s₁, prev⟩, hrounds, hrun⟩ := bind_eq_ok.1 hrun
    obtain ⟨steps, run, hmakes⟩ := ih (by omega) hrounds
    have hoff₁ := fillInodes_offset hA hpage hpF (by omega) h.rep hoff hrounds
    have hnode : addU64 (ListNode.offset.get s₁.mem (p + 4096)) (j * sizeofAtfsInode) = p +
        216 * j := by
      rw [hoff₁, show sizeofAtfsInode = 216 from rfl, addU64_of_lt (by omega)]
      omega
    have hclean := hclean j (by omega) s₁ prev hrounds
    simp only [hnode] at hrun hclean
    rw [pageInodes_succ]
    generalize hx : p + 216 * j = x at hrun hclean
    have hin : InodeIn x p := ⟨hpage, by omega, by rw [show sizeofAtfsInode = 216 from rfl]; omega⟩
    obtain ⟨s₂, hinit, hrun⟩ := bind_eq_ok.1 hrun
    obtain ⟨rfl, -⟩ := Prod.mk.inj (Except.ok.inj hrun)
    have hapart : ∀ y ∈ pageInodes p j ++ v.files, x + 216 ≤ y ∨ y + 216 ≤ x := by
      intro y hy
      rcases List.mem_append.1 hy with hy | hy
      · obtain ⟨k, hk, rfl⟩ := mem_pageInodes.1 hy
        omega
      · have := hnew y hy
        omega
    have hmade : FsStep A R ⟨s₁, v.homes, pageInodes p j ++ v.files⟩ (.init x)
        ⟨s₂, v.homes, x :: (pageInodes p j ++ v.files)⟩ := .init hp hin hapart hclean hinit
    have hlinked := FsStep.side (R := R) (SideWrite.inode (A := A)
      (v := ⟨s₂, v.homes, x :: (pageInodes p j ++ v.files)⟩) hp hin List.mem_cons_self
      ((changesOnly_inPage _ _ (ListNode.offset.get s₂.mem (p + 4096))).trans
        (changesOnly_next _ _ (prev.getD offsetNull))))
    refine ⟨_, (run.snoc hmade).snoc hlinked, ?_⟩
    intro q hq
    simp only [List.mem_append, List.mem_singleton] at hq
    rcases hq with (hq | rfl) | rfl
    · exact hmakes q hq
    · trivial
    · trivial

/-- A refill of the table `i`: the page it takes, and the steps it makes. Nothing of the superblock
is written. -/
theorem Sound.fillAtfsInodeList_run (hA : KeepsTables A) (h : v.Sound A F logs) (hi : i < gCpuNums)
    (hclean : ∀ node s', A.allocFreePages v.state atfsInodePerAlloc = .ok (node, s') →
      CleanFill A s' node)
    (hrun : fillAtfsInodeList A v.state (getAtfsInodeTableAddr i) = .ok t) :
    ∃ p u steps, A.allocFreePages v.state atfsInodePerAlloc = .ok (p + 4096, u) ∧
      Run (FsStep A R) v steps ⟨t, p :: v.homes, pageInodes p 18 ++ v.files⟩ ∧
      (∀ q ∈ steps, q.2.Makes) ∧
      Set.EqOn t.mem v.state.mem (Set.Iio 4095) := by
  rw [fillAtfsInodeList] at hrun
  obtain ⟨⟨node, s₁⟩, halloc, hrun⟩ := bind_eq_ok.1 hrun
  obtain ⟨⟨s₂, r⟩, hrounds, hrun⟩ := bind_eq_ok.1 hrun
  obtain rfl := Except.ok.inj hrun
  have hclean := hclean node s₁ halloc
  obtain ⟨p, l, F₁, rfl, hlen, hall⟩ := PageAllocator.allocFreePages_spec h.rep (by decide) halloc
  obtain ⟨q, rfl⟩ : ∃ q, l = [q] := List.length_eq_one_iff.1 hlen
  obtain rfl : p = q := hall.chain.chain.head_eq
  have hpage : IsPage p := hall.chain.page p (by simp)
  have hbounds := hpage.bounds
  have hpF : p ∈ F := hall.fresh p (by simp)
  have hoff : ListNode.offset.get s₁.mem (p + 4096) = p := hall.chain.offset p (by simp)
  have hhome : FsStep A R v .home ⟨s₁, ListNode.offset.get s₁.mem (p + 4096) :: v.homes, v.files⟩ :=
    .home halloc
  obtain ⟨F', hsub, hsound⟩ := h.takeHome halloc
  rw [hoff] at hhome hsound
  have hnew : ∀ y ∈ v.files, y + 216 ≤ p ∨ p + 4096 ≤ y := by
    intro y hy
    obtain ⟨hq, hle, hle'⟩ := (h.log y hy).inodeIn
    rw [show sizeofAtfsInode = 216 from rfl] at hle'
    have hne : (logs y).home ≠ p := fun hc => (h.home _ (h.homes y hy)).2.1 (hc ▸ hpF)
    have := hq.apart hpage hne
    omega
  obtain ⟨steps, run, hmakes⟩ := hsound.fillInodes_run (R := R) hA List.mem_cons_self hoff hnew
    hclean le_rfl hrounds
  obtain ⟨-, -, -, hkeep, -⟩ := fillInodes_spec hA hpage (hsound.home p List.mem_cons_self).2.1
    le_rfl hsound.rep hoff
    hrounds
  -- the node of the page, and the header of the table
  have hnode : ChangesOnly (linkBytes p) s₂.mem
    (if ListNode.nextOffset.get s₂.mem (p + 4096) ≠ offsetNull then
      ListNode.nextOffset.set s₂.mem (p + 4096) offsetNull else s₂.mem) := by
    split_ifs
    · exact changesOnly_setLink _ _ _
    · exact .refl _ _
  generalize (if ListNode.nextOffset.get s₂.mem (p + 4096) ≠ offsetNull then
    ListNode.nextOffset.set s₂.mem (p + 4096) offsetNull else s₂.mem) = m at hnode ⊢
  have hheader (h c : Nat) : ChangesOnly tableBytes m
    (AllocatorList.count.set (AllocatorList.head.set m
      (getAtfsInodeTableAddr i) h) (getAtfsInodeTableAddr i) c) :=
    (changesOnly_table hi _ _ _).trans (changesOnly_table hi _ _ _)
  refine ⟨p, s₁, _, halloc, ((Run.nil.snoc hhome).append run).snoc (.side (SideWrite.trans
    (SideWrite.homeNode List.mem_cons_self hpage hnode) (SideWrite.tables hA (hheader _ _)))), ?_,
      ?_⟩
  · intro q hq
    simp only [List.mem_append, List.mem_singleton, List.not_mem_nil, false_or] at hq
    rcases hq with (rfl | hq) | rfl
    · trivial
    · exact hmakes q hq
    · trivial
  · intro a ha
    rw [Set.mem_Iio] at ha
    have htable : a ∉ tableBytes := fun hc => by
      rw [tableBytes, Set.mem_Ico] at hc
      omega
    have halloc {G : Set Nat} (hG : ∀ q ∈ G, IsPage q) : a ∉ allocatorBytes G := by
      rintro (hc | ⟨q, hq, hc⟩)
      · rw [mem_metadata] at hc
        omega
      · have := (hG q hq).bounds
        rw [mem_linkBytes] at hc
        omega
    refine (hheader _ _ a htable).trans ?_
    rw [hnode a (by rw [mem_linkBytes]; omega), hkeep a ?_,
      hall.frame a (halloc (A.rep_page h.rep))]
    rintro (hc | hc)
    · exact halloc (A.rep_page hsound.rep) hc.1
    · rw [mem_bodyBytes] at hc
      omega

/-- While inodes are made, the files that are there stay what they are, and the new ones are empty.
-/
theorem Filed.fileOf_makes {v' : Volume} {steps : List (Volume × FsCall)} (h : v.Filed A F logs)
    (run : Run (FsStep A R) v steps v') (hmakes : ∀ q ∈ steps, q.2.Makes) :
    (∀ y ∈ v.files, y ∈ v'.files ∧ fileOf v'.state y = fileOf v.state y) ∧
      ∀ y ∈ v'.files, y ∉ v.files → fileOf v'.state y = .empty := by
  induction run with
  | nil => exact ⟨fun y hy => ⟨hy, rfl⟩, fun y hy hnot => absurd hy hnot⟩
  | @snoc steps u u' c run hstep ih =>
    have hmakes' : ∀ q ∈ steps, q.2.Makes := fun q hq => hmakes q (List.mem_append_left _ hq)
    obtain ⟨hold, hnew⟩ := ih hmakes'
    obtain ⟨F', logs', hu⟩ := h.run run fun q hq => (hmakes' q hq).stale
    have hmake : c.Makes := hmakes (u, c) (by simp)
    -- a step after which the same files are the same
    have hkeep {s : State} (homes : List Nat)
      (hsame : ∀ y ∈ u.files, fileOf s y = fileOf u.state y) :
        (∀ y ∈ v.files, y ∈ (⟨s, homes, u.files⟩ : Volume).files ∧ fileOf s y = fileOf v.state y) ∧
          ∀ y ∈ u.files, y ∉ v.files → fileOf s y = .empty := by
      refine ⟨fun y hy => ⟨(hold y hy).1, (hsame y (hold y hy).1).trans (hold y hy).2⟩,
        fun y hy hnot => ?_⟩
      exact (hsame y hy).trans (hnew y hy hnot)
    cases hstep with
    | home halloc => exact hkeep [] (hu.home halloc).2
    | side hside => exact hkeep [] (hu.side hside).2
    | init hp hin hapart hclean hinit =>
      obtain ⟨-, hempty, hsame⟩ := hu.init hp hin hapart hclean hinit
      obtain ⟨hold', hnew'⟩ := hkeep [] hsame
      refine ⟨fun y hy => ⟨List.mem_cons_of_mem _ (hold' y hy).1, (hold' y hy).2⟩,
        fun y hy hnot => ?_⟩
      rcases List.mem_cons.1 hy with rfl | hy
      · exact hempty
      · exact hnew' y hy hnot
    | call => exact absurd hmake id
    | invalidate => exact absurd hmake id
    | gc => exact absurd hmake id

end Fill

/-! ## The tables of a volume -/

/-- The tables have inodes of the volume, each once, and all others have been handed out. -/
structure Tabled (tables : Nat → List Nat) (handed : List Nat) (v : Volume) : Prop where
  holds : ∀ i < gCpuNums, TableHolds v.state.mem i (tables i)
  all : (allInodes tables ++ handed).Perm v.files
  nodup : v.files.Nodup

section Tabled

variable {A : PageAllocator} {R : RadixTree} {F : Set Nat} {logs : Nat → FileLog} {v : Volume}
  {s t : State} {tables : Nat → List Nat} {handed rest : List Nat} {i p x : Nat}

theorem Tabled.handed_subset (ht : v.Tabled tables handed) : handed ⊆ v.files := fun _ hy =>
  ht.all.mem_iff.1 (List.mem_append_right _ hy)

theorem Tabled.mem_files (ht : v.Tabled tables handed) (hi : i < gCpuNums) (hx : x ∈ tables i) :
    x ∈ v.files :=
  ht.all.mem_iff.1 (List.mem_append_left _ (mem_allInodes.2 ⟨i, hi, hx⟩))

/-- The tables stay what they are if neither they nor the links of the inodes are written. -/
theorem Tabled.congr (h : v.Sound A F logs) (ht : v.Tabled tables handed)
    (htables : Set.EqOn s.mem v.state.mem tableBytes)
    (hnext : ∀ y ∈ v.files, AtfsInode.next.get s.mem y = AtfsInode.next.get v.state.mem y) :
    Volume.Tabled tables handed ⟨s, v.homes, v.files⟩ := by
  refine ⟨fun i hi => ⟨?_, ?_⟩, ht.all, ht.nodup⟩
  · rw [table_get_congr hi htables]
    refine (ht.holds i hi).chain.congr fun y hy => ?_
    have hfile := ht.mem_files hi hy
    have hb := (h.log y hfile).inodeIn.bounds
    rw [inodeNext_eq (by omega), inodeNext_eq (by omega)]
    exact (hnext y hfile).symm
  · rw [table_get_congr hi htables]
    exact (ht.holds i hi).count

/-- Seen from the tables a volume is a pool of inodes. -/
theorem Sound.inodePool (h : v.Sound A F logs) (ht : v.Tabled tables handed) :
    InodePool.Sound A F tables ⟨v.state, handed, []⟩ where
  rep := h.rep
  holds := ht.holds
  nodup := ht.all.nodup_iff.2 ht.nodup
  placed x hx := by
    have hx := ht.all.mem_iff.1 hx
    exact ⟨_, (h.log x hx).inodeIn, (h.home _ (h.homes x hx)).2.1⟩
  apart x hx y hy := h.apart x (ht.all.mem_iff.1 hx) y (ht.all.mem_iff.1 hy)
  freed _ hx := absurd hx List.not_mem_nil

/-- A refill puts the inodes of the page it takes on the table. -/
theorem Sound.fill_tabled (hA : KeepsTables A) (h : v.Sound A F logs) (ht : v.Tabled tables handed)
    (hi : i < gCpuNums) (hnil : tables i = []) {u : State}
    (halloc : A.allocFreePages v.state atfsInodePerAlloc = .ok (p + 4096, u))
    (hrun : fillAtfsInodeList A v.state (getAtfsInodeTableAddr i) = .ok t) :
    Volume.Tabled (Function.update tables i (pageInodes p 18)) handed
      ⟨t, p :: v.homes, pageInodes p 18 ++ v.files⟩ ∧
      ∀ y ∈ handed, Set.EqOn t.mem v.state.mem (inodeBytes y) := by
  obtain ⟨F', q, hpool⟩ := (h.inodePool ht).fill hA hi hnil hrun
  obtain ⟨-, r, -, -, -, -, hholds, -, hkeep, -, -, u', halloc', -⟩ :=
    fillAtfsInodeList_spec hA hi h.rep hrun
  -- the page is the one that the allocator has returned
  obtain rfl : p = r := by
    have := (Prod.mk.inj (Except.ok.inj (halloc.symm.trans halloc'))).1
    omega
  obtain rfl : p = q := by
    have hq := hpool.holds i hi
    rw [Function.update_self] at hq
    have hhead {r : Nat} (hr : TableHolds t.mem i (pageInodes r 18)) :
        AllocatorList.head.get t.mem (getAtfsInodeTableAddr i) = r + 216 * 17 := by
      have hchain := hr.chain
      rw [pageInodes_succ] at hchain
      exact hchain.head_eq
    have := (hhead hholds).symm.trans (hhead hq)
    omega
  have hperm : (allInodes (Function.update tables i (pageInodes p 18)) ++ handed).Perm
      (pageInodes p 18 ++ v.files) := by
    refine ((allInodes_fill hi hnil).append_right handed).trans ?_
    rw [List.append_assoc]
    exact ht.all.append_left _
  refine ⟨⟨hpool.holds, hperm, hperm.nodup_iff.1 hpool.nodup⟩, fun y hy => ?_⟩
  have hfile := ht.handed_subset hy
  obtain ⟨hpage, hfree, -⟩ := h.home _ (h.homes y hfile)
  exact (hkeep _ hpage hfree).mono (h.log y hfile).inodeIn.subset_page

/-- The head of a table handed out. -/
theorem Sound.pop_tabled (hA : KeepsTables A) (h : v.Sound A F logs) (ht : v.Tabled tables handed)
    (hi : i < gCpuNums) (hne : tables i ≠ [])
    (hpop : popAtfsInode v.state (getAtfsInodeTableAddr i) = (x, t)) :
    FsStep A R v .side ⟨t, v.homes, v.files⟩ ∧
      (∃ tables', Volume.Tabled tables' (x :: handed) ⟨t, v.homes, v.files⟩) ∧
      Set.EqOn t.mem v.state.mem (Set.Iio 4095) ∧ ∀ y ∈ handed,
      Set.EqOn t.mem v.state.mem (inodeBytes y) := by
  obtain ⟨y, rest, hy⟩ := List.exists_cons_of_ne_nil hne
  obtain ⟨t', hpop', hpool⟩ := (h.inodePool ht).pop hA hi hy
  obtain ⟨rfl, rfl⟩ := Prod.mk.inj (hpop'.symm.trans hpop)
  have hholds := ht.holds i hi
  rw [hy] at hholds
  have hfile : y ∈ v.files := ht.mem_files hi (hy ▸ List.mem_cons_self)
  have hin := (h.log y hfile).inodeIn
  have hside := SideWrite.pop (A := A) hA hi (h.homes y hfile) hin hfile hholds.chain.head_eq
  obtain ⟨t₁, hpop₁, hframe, -⟩ := popAtfsInode_spec hi hin hholds.chain.head_eq hholds.count
  obtain rfl := (Prod.mk.inj (hpop₁.symm.trans hpop)).2
  rw [hpop] at hside
  have hperm : (allInodes (Function.update tables i rest) ++ y :: handed).Perm v.files :=
    (List.perm_middle.trans ((allInodes_pop hi hy).append_right handed)).trans ht.all
  refine ⟨.side hside, ⟨_, hpool.holds, hperm, ht.nodup⟩, fun a ha => hframe a ?_, fun z hz => ?_⟩
  · have hb := hin.bounds
    rw [Set.mem_Iio] at ha
    rintro (hc | hc)
    · rw [tableBytes, Set.mem_Ico] at hc
      omega
    · rw [inodeBytes, Set.mem_Ico] at hc
      omega
  · have hzfile := ht.handed_subset hz
    have hzy : z ≠ y := by
      rintro rfl
      exact (List.nodup_cons.1 (List.nodup_append'.1 (hperm.nodup_iff.2 ht.nodup)).2.1).1 hz
    have hzin := (h.log z hzfile).inodeIn
    have hapart := h.apart z hzfile y hfile hzy
    refine hframe.eqOn (Set.disjoint_left.2 ?_)
    rintro a (ha | ha) hc
    · exact Set.disjoint_left.1 hzin.disjoint_tableBytes hc ha
    · rw [inodeBytes, Set.mem_Ico] at ha hc
      omega

/-- `alloc_atfs_inode` as a run: the inode it returns was on a table or is made for it, and has not
been handed out before. -/
theorem Filed.allocAtfsInode (hA : KeepsTables A) (h : v.Filed A F logs)
    (ht : v.Tabled tables handed) (hclean : CleanAlloc A v.state)
    (hrun : allocAtfsInode A v.state = .ok (x, t)) :
    ∃ homes files tables' steps, Run (FsStep A R) v steps ⟨t, homes, files⟩ ∧
      (∀ q ∈ steps, q.2.Makes) ∧
      Volume.Tabled tables' (x :: handed) ⟨t, homes, files⟩ ∧
      Set.EqOn t.mem v.state.mem (Set.Iio 4095) ∧
      ∀ y ∈ handed, Set.EqOn t.mem v.state.mem (inodeBytes y) := by
  have hi := getCpuid_lt v.state.currentCpu
  rcases hcpu : getCpuid v.state.currentCpu with ⟨i, currentCpu⟩
  rw [CleanAlloc, hcpu] at hclean
  rw [hcpu] at hi
  have hside := SideWrite.cpu A v currentCpu
  obtain ⟨h₁, -⟩ := h.side hside
  have hfirst : Run (FsStep A R) v [(v, .side)] ⟨{ v.state with currentCpu }, v.homes, v.files⟩ :=
    Run.nil.snoc (.side hside)
  obtain ⟨t₁, hpop, hfill⟩ := allocAtfsInode_ok hcpu hrun
  -- the volume when the table has inodes
  obtain ⟨homes, files, tables₁, steps, run, hmakes, ht₁, hne, hsuper, hkeep⟩ :
    ∃ homes files tables₁ steps,
      Run (FsStep A R) v steps ⟨t₁, homes, files⟩ ∧ (∀ q ∈ steps, q.2.Makes) ∧
      Volume.Tabled tables₁ handed ⟨t₁, homes, files⟩ ∧ tables₁ i ≠ [] ∧
      Set.EqOn t₁.mem v.state.mem (Set.Iio 4095) ∧ ∀ y ∈ handed,
      Set.EqOn t₁.mem v.state.mem (inodeBytes y) := by
    rcases hfill with ⟨hzero, hfill⟩ | ⟨hzero, rfl⟩
    · have hnil : tables i = [] := List.length_eq_zero_iff.1
        ((ht.holds i hi).count.symm.trans hzero)
      have ht' : Volume.Tabled tables handed ⟨{ v.state with currentCpu }, v.homes, v.files⟩ :=
        ⟨ht.holds, ht.all, ht.nodup⟩
      obtain ⟨p, u, steps, halloc, run, hmakes, hsuper⟩ :=
        h₁.sound.fillAtfsInodeList_run (R := R) hA hi (hclean hzero) hfill
      obtain ⟨ht₁, hkeep⟩ := h₁.sound.fill_tabled hA ht' hi hnil halloc hfill
      refine ⟨_, _, _, _, hfirst.append run, ?_, ht₁, ?_, hsuper, hkeep⟩
      · intro q hq
        rcases List.mem_cons.1 (List.singleton_append ▸ hq) with rfl | hq
        · trivial
        · exact hmakes q hq
      · rw [Function.update_self, pageInodes_succ]
        exact List.cons_ne_nil _ _
    · refine ⟨_, _, tables, _, hfirst, ?_, ⟨ht.holds, ht.all, ht.nodup⟩, fun hnil => hzero ?_,
        Set.eqOn_refl _ _, fun _ _ => Set.eqOn_refl _ _⟩
      · intro q hq
        obtain rfl := List.mem_singleton.1 hq
        trivial
      · exact (ht.holds i hi).count.trans (by rw [hnil]; rfl)
  obtain ⟨F₁, logs₁, hfiled⟩ := h.run run fun q hq => (hmakes q hq).stale
  obtain ⟨hpopped, ⟨tables', ht'⟩, hsuper', hkeep'⟩ :=
    hfiled.sound.pop_tabled (R := R) hA ht₁ hi hne hpop
  refine ⟨_, _, tables', _, run.snoc hpopped, ?_, ht', hsuper'.trans hsuper,
    fun y hy => (hkeep' y hy).trans (hkeep y hy)⟩
  intro q hq
  rcases List.mem_append.1 hq with hq | hq
  · exact hmakes q hq
  · obtain rfl := List.mem_singleton.1 hq
    trivial

end Tabled

end Volume

end Atfs
