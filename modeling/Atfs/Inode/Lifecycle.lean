import Atfs.Inode.Pool
import Atfs.Library.LabelledRun

/-!
# The life of an inode

An inode is filled in when its page is taken, handed out, used, freed and handed out again.
`init_atfs_inode` runs at the first of these steps only, and sets nothing of the tree: a new file
is empty as long as the slots of the page and the files that are freed are.
-/

namespace Atfs

open ByteMemory LinkedChain LabelledRun

/-! ## Files and their pages -/

/-- The inode describes an empty file, and its index maps nothing. -/
structure EmptyFile (s : State) (x : Nat) : Prop where
  inode : NewInode s.mem x
  index : s.index x = fun _ => offsetNull

/-- The inodes `xs` own the pages `own`: the first page of their log among them, no page twice, none
that the allocator holds and none that inodes lie in. -/
structure Owned (m : Memory) (F : Set Nat) (own : Nat → Set Nat) (xs : List Nat) : Prop where
  apart : InodesApart F xs
  log : ∀ x ∈ xs, AtfsInode.logHead.get m x ∈ own x
  page : ∀ x ∈ xs, ∀ p ∈ own x, IsPage p ∧ p ∉ F
  disjoint : ∀ x ∈ xs, ∀ y ∈ xs, x ≠ y → Disjoint (own x) (own y)
  inodePage : ∀ x ∈ xs, ∀ p, InodeIn x p → ∀ y ∈ xs, p ∉ own y

section Owned

variable {m m' : Memory} {F F' U : Set Nat} {own own' : Nat → Set Nat} {xs ys : List Nat}
  {x z p q : Nat}

theorem InodeIn.page_unique (h : InodeIn x p) (h' : InodeIn x q) : p = q := by
  obtain ⟨hp, hle, hlt⟩ := h
  obtain ⟨hq, hle', hlt'⟩ := h'
  by_contra hne
  have := hp.apart hq hne
  omega

theorem Owned.placed (h : Owned m F own xs) (hx : x ∈ xs) (hp : InodeIn x p) : p ∉ F := by
  obtain ⟨q, hq, hqF⟩ := h.apart.placed x hx
  rwa [hp.page_unique hq]

/-- Some of the inodes, each with some of its pages. -/
theorem Owned.mono (h : Owned m F own xs) (hsub : ys ⊆ xs) (hnodup : ys.Nodup)
    (hown : ∀ x ∈ ys, own' x ⊆ own x) (hlog : ∀ x ∈ ys, AtfsInode.logHead.get m' x ∈ own' x) :
    Owned m' F own' ys where
  apart := h.apart.mono subset_rfl hsub hnodup
  log := hlog
  page := fun x hx p hp => h.page x (hsub hx) p (hown x hx hp)
  disjoint := fun x hx y hy hxy =>
    (h.disjoint x (hsub hx) y (hsub hy) hxy).mono (hown x hx) (hown y hy)
  inodePage := fun x hx p hp y hy hc => h.inodePage x (hsub hx) p hp y (hsub hy) (hown y hy hc)

/-- The inodes of a page that was free own their log pages. -/
theorem Owned.fill (h : Owned m F own xs) (hFpage : ∀ q ∈ F, IsPage q) (hpF : p ∈ F)
    (hsub : F' ⊆ F) (hpF' : p ∉ F') (hfilled : Filled m' (F \ {p}) F' (pageInodes p 18))
    (hhead : ∀ x ∈ xs, AtfsInode.logHead.get m' x = AtfsInode.logHead.get m x)
    (hown : ∀ x ∈ xs, own' x = own x)
    (hnew : ∀ x ∈ pageInodes p 18, own' x = {AtfsInode.logHead.get m' x}) :
    Owned m' F' own' (pageInodes p 18 ++ xs) := by
  have hp := hFpage p hpF
  -- the log page of a new inode was free, that of an old one was not
  have hapart {x y : Nat} (hx : x ∈ pageInodes p 18) (hy : y ∈ xs) :
      Disjoint (own' x) (own' y) := by
    rw [hnew x hx, hown y hy, Set.disjoint_singleton_left]
    exact fun hc => (h.page y hy _ hc).2 (hfilled.log x hx).1.1
  refine ⟨h.apart.fill hp hpF hsub hpF', fun x hx => ?_, fun x hx q hq => ?_,
    fun x hx y hy hxy => ?_, fun x hx q hq y hy hc => ?_⟩
  · rcases List.mem_append.1 hx with hx | hx
    · rw [hnew x hx]
      exact Set.mem_singleton _
    · rw [hown x hx, hhead x hx]
      exact h.log x hx
  · rcases List.mem_append.1 hx with hx | hx
    · rw [hnew x hx, Set.mem_singleton_iff] at hq
      obtain ⟨⟨hF, -⟩, hF'⟩ := hfilled.log x hx
      rw [hq]
      exact ⟨hFpage _ hF, hF'⟩
    · obtain ⟨hq, hqF⟩ := h.page x hx q (hown x hx ▸ hq)
      exact ⟨hq, fun hc => hqF (hsub hc)⟩
  · rcases List.mem_append.1 hx with hx | hx <;> rcases List.mem_append.1 hy with hy | hy
    · rw [hnew x hx, hnew y hy, Set.disjoint_singleton]
      exact hfilled.inj x hx y hy hxy
    · exact hapart hx hy
    · exact (hapart hy hx).symm
    · rw [hown x hx, hown y hy]
      exact h.disjoint x hx y hy hxy
  · rcases List.mem_append.1 hx with hx' | hx' <;> rcases List.mem_append.1 hy with hy' | hy'
    · obtain rfl := hq.page_unique (InodesApart.pageInodes_in hp hx')
      rw [hnew y hy', Set.mem_singleton_iff] at hc
      exact (hfilled.log y hy').1.2 hc.symm
    · obtain rfl := hq.page_unique (InodesApart.pageInodes_in hp hx')
      exact (h.page y hy' _ (hown y hy' ▸ hc)).2 hpF
    · rw [hnew y hy', Set.mem_singleton_iff] at hc
      exact h.placed hx' hq (hc ▸ (hfilled.log y hy').1.1)
    · exact h.inodePage x hx' q hq y hy' (hown y hy' ▸ hc)

/-- One inode exchanges pages with the allocator. -/
theorem Owned.exchange (h : Owned m F own xs) (hz : z ∈ xs) (hFpage : ∀ q ∈ F, IsPage q)
    (hsub : F' ∪ U ⊆ F ∪ own z) (hdisj : Disjoint F' U) (hlog : AtfsInode.logHead.get m' z ∈ U)
    (hhead : ∀ x ∈ xs, x ≠ z → AtfsInode.logHead.get m' x = AtfsInode.logHead.get m x) :
    Owned m' F' (Function.update own z U) xs := by
  have hF' {q : Nat} (hq : q ∉ F) (hqz : q ∉ own z) : q ∉ F' ∧ q ∉ U :=
    ⟨fun hc => (hsub (.inl hc)).elim hq hqz, fun hc => (hsub (.inr hc)).elim hq hqz⟩
  have hother {y q : Nat} (hy : y ∈ xs) (hyz : y ≠ z) (hq : q ∈ own y) : q ∉ F' ∧ q ∉ U :=
    hF' (h.page y hy q hq).2 (Set.disjoint_left.1 (h.disjoint y hy z hz hyz) hq)
  refine ⟨⟨h.apart.nodup, fun x hx => ?_, h.apart.apart⟩, fun x hx => ?_, fun x hx q hq => ?_,
    fun x hx y hy hxy => ?_, fun x hx q hq y hy hc => ?_⟩
  · obtain ⟨p, hp, hpF⟩ := h.apart.placed x hx
    exact ⟨p, hp, (hF' hpF (h.inodePage x hx p hp z hz)).1⟩
  · by_cases hxz : x = z
    · subst hxz
      rwa [Function.update_self]
    · rw [Function.update_of_ne hxz, hhead x hx hxz]
      exact h.log x hx
  · by_cases hxz : x = z
    · subst hxz
      rw [Function.update_self] at hq
      refine ⟨?_, fun hc => Set.disjoint_left.1 hdisj hc hq⟩
      exact (hsub (.inr hq)).elim (hFpage q) fun hq => (h.page x hx q hq).1
    · rw [Function.update_of_ne hxz] at hq
      exact ⟨(h.page x hx q hq).1, (hother hx hxz hq).1⟩
  · by_cases hxz : x = z
    · subst hxz
      rw [Function.update_self, Function.update_of_ne (Ne.symm hxy)]
      exact Set.disjoint_left.2 fun q hq hq' => (hother hy (Ne.symm hxy) hq').2 hq
    · rw [Function.update_of_ne hxz]
      by_cases hyz : y = z
      · subst hyz
        rw [Function.update_self]
        exact Set.disjoint_left.2 fun q hq hq' => (hother hx hxz hq).2 hq'
      · rw [Function.update_of_ne hyz]
        exact h.disjoint x hx y hy hxy
  · by_cases hyz : y = z
    · subst hyz
      rw [Function.update_self] at hc
      exact (hF' (h.placed hx hq) (h.inodePage x hx q hq y hy)).2 hc
    · rw [Function.update_of_ne hyz] at hc
      exact h.inodePage x hx q hq y hy hc

end Owned

/-! ## Runs -/

/-- The files of the system: the inodes in use and the pages of each of them. -/
structure FilePool where
  state : State
  inUse : List Nat
  used : Nat → Set Nat

namespace FilePool

/-- The inode stands on one of the tables. -/
def OnTable (s : FilePool) (x : Nat) : Prop :=
  ∃ i < gCpuNums, ∃ l, Segment (inodeNext s.state.mem)
    (AllocatorList.head.get s.state.mem (getAtfsInodeTableAddr i)) l offsetNull ∧
      offsetNull ∉ l ∧ x ∈ l

/-- The inodes in use and those on the tables. -/
def inodes (s : FilePool) : Set Nat := {x | x ∈ s.inUse ∨ s.OnTable x}

end FilePool

/-- What the use of the file `x`, which owns the pages `U`, may do: write its pages, its inode and
what the allocator holds, exchange pages with the allocator, and change its tree. The trees of the
other `inodes` stay; in a slot that is none of them there may be any tree behind it, as the bytes
written to its page have it. -/
structure Use (A : PageAllocator) (x : Nat) (inodes U U' : Set Nat) (s t : State) : Prop where
  pages : ∀ F, A.Rep s.mem F → ∃ F', A.Rep t.mem F' ∧ F' ∪ U' ⊆ F ∪ U ∧ Disjoint F' U'
  keeps : ∀ F, A.Rep s.mem F → ∀ p, IsPage p → p ∉ F → p ∉ U → ∀ a ∈ pageBytes p,
    a ∉ inodeBytes x → t.mem a = s.mem a
  tables : Set.EqOn t.mem s.mem tableBytes
  log : AtfsInode.logHead.get t.mem x ∈ U'
  index : ∀ i ∈ inodes, i ≠ x → t.index i = s.index i

inductive FileEvent
  | alloc (x : Nat)
  | use (x : Nat)
  | free (x : Nat)

inductive FileStep (A : PageAllocator) : FilePool → FileEvent → FilePool → Prop
  | alloc {s : FilePool} {x : Nat} {t : State} (h : allocAtfsInode A s.state = .ok (x, t)) :
    FileStep A s (.alloc x)
      ⟨t, x :: s.inUse, Function.update s.used x {AtfsInode.logHead.get t.mem x}⟩
  | use {s : FilePool} {x : Nat} {t : State} {U : Set Nat} (hx : x ∈ s.inUse)
    (h : Use A x s.inodes (s.used x) U s.state t) :
    FileStep A s (.use x) ⟨t, s.inUse, Function.update s.used x U⟩
  | free {s : FilePool} {x : Nat} (hx : x ∈ s.inUse) :
    FileStep A s (.free x) ⟨freeAtfsInode s.state x, s.inUse.erase x, s.used⟩

namespace FilePool

/-- The pages of a file; a free inode has its first log page. -/
def owned (s : FilePool) (x : Nat) : Set Nat :=
  if x ∈ s.inUse then s.used x else {AtfsInode.logHead.get s.state.mem x}

/-- The page that a refill takes has no trees in its slots, and a file that is freed is empty. -/
def Clean (A : PageAllocator) (s : FilePool) : FileEvent → Prop
  | .alloc _ =>
    AllocatorList.count.get s.state.mem (getAtfsInodeTableAddr (getCpuid s.state.currentCpu).1) =
      0 →
    ∀ node t, A.allocFreePages { s.state with currentCpu := (getCpuid s.state.currentCpu).2 }
      atfsInodePerAlloc = .ok (node, t) →
    ∀ x ∈ pageInodes (ListNode.offset.get t.mem node) 18, s.state.index x = fun _ => offsetNull
  | .use _ => True
  | .free x => EmptyFile s.state x

/-- The file is empty, and its log starts in a page that no other inode owns. -/
structure NewFile (s : FilePool) (x : Nat) : Prop where
  empty : EmptyFile s.state x
  page : IsPage (AtfsInode.logHead.get s.state.mem x)
  owned : s.owned x = {AtfsInode.logHead.get s.state.mem x}
  alone : ∀ y, y ≠ x → y ∈ s.inUse ∨ s.OnTable y → AtfsInode.logHead.get s.state.mem x ∉ s.owned y

/-- The inodes on the tables are empty files, and all inodes own their pages. -/
structure Sound (A : PageAllocator) (F : Set Nat) (tables : Nat → List Nat)
    (s : FilePool) : Prop where
  rep : A.Rep s.state.mem F
  chain : ∀ i < gCpuNums, Segment (inodeNext s.state.mem)
    (AllocatorList.head.get s.state.mem (getAtfsInodeTableAddr i)) (tables i) offsetNull
  count : ∀ i < gCpuNums,
    AllocatorList.count.get s.state.mem (getAtfsInodeTableAddr i) ≤ (tables i).length
  empty : ∀ x ∈ allInodes tables, EmptyFile s.state x
  owned : Owned s.state.mem F s.owned (allInodes tables ++ s.inUse)

end FilePool

/-! ## Single steps -/

section Steps

variable {A : PageAllocator} {F : Set Nat} {tables : Nat → List Nat} {s t : FilePool}
  {i x y p q : Nat}

/-- A link that is set leaves the words of every file. -/
theorem setInodeNext_words (hx : InodeIn x p) (hxy : x = y ∨ x + 216 ≤ y ∨ y + 216 ≤ x)
    (m : Memory) (v : Nat) :
    Set.EqOn (setInodeNext m x v) m (Set.Ico y (y + 80)) := by
  have hb := hx.bounds
  intro a ha
  rw [Set.mem_Ico] at ha
  rw [setInodeNext_eq (by omega)]
  refine Field.set_apply_of_outside _ _ ?_
  rw [AtfsInode.next_off, AtfsInode.next_size]
  omega

theorem setInodeNext_null_words (hy : InodeIn y q) (m : Memory) (v : Nat) :
    Set.EqOn (setInodeNext m offsetNull v) m (Set.Ico y (y + 80)) := by
  have hb := hy.bounds
  intro a ha
  rw [Set.mem_Ico] at ha
  refine changesOnly_setInodeNext_null m v a ?_
  rw [Set.mem_Ico]
  omega

/-- Handing out the head of a table leaves the words of every file. -/
theorem popAtfsInode_words (hi : i < gCpuNums) {u : State} (hx : InodeIn x p)
    (hhead : AllocatorList.head.get u.mem (getAtfsInodeTableAddr i) = x) (hy : InodeIn y q)
    (hxy : x = y ∨ x + 216 ≤ y ∨ y + 216 ≤ x) :
    Set.EqOn (popAtfsInode u (getAtfsInodeTableAddr i)).2.mem u.mem (Set.Ico y (y + 80)) := by
  have hb := hy.bounds
  have htable (f : Field 64) (m : Memory) (v : Nat) :
      Set.EqOn (f.set m (getAtfsInodeTableAddr i) v) m (Set.Ico y (y + 80)) :=
    (changesOnly_table hi f m v).eqOn (Set.disjoint_left.2 fun a ha hc => by
      rw [tableBytes, Set.mem_Ico] at ha
      rw [Set.mem_Ico] at hc
      omega)
  simp only [popAtfsInode, hhead]
  exact (htable _ _ _).trans ((setInodeNext_words hx hxy _ _).trans (htable _ _ _))

theorem EmptyFile.congr {u v : State} (h : EmptyFile u x)
    (heq : Set.EqOn v.mem u.mem (Set.Ico x (x + 80))) (hindex : v.index x = u.index x) :
    EmptyFile v x := ⟨h.inode.congr heq, hindex.trans h.index⟩

theorem FilePool.owned_inUse (hx : x ∈ s.inUse) : s.owned x = s.used x := if_pos hx

theorem FilePool.owned_free (hx : x ∉ s.inUse) : s.owned x =
    {AtfsInode.logHead.get s.state.mem x} :=
  if_neg hx

/-- The pages of the other inodes stay. -/
theorem FilePool.owned_update {u : State} {U : Set Nat} (hx : x ∈ s.inUse)
    (hhead : y ∉ s.inUse → AtfsInode.logHead.get u.mem y = AtfsInode.logHead.get s.state.mem y) :
    FilePool.owned ⟨u, s.inUse, Function.update s.used x U⟩ y = Function.update s.owned x U y := by
  by_cases hyx : y = x
  · subst hyx
    simp only [FilePool.owned]
    rw [if_pos hx, Function.update_self, Function.update_self]
  · rw [Function.update_of_ne hyx]
    simp only [FilePool.owned, Function.update_of_ne hyx]
    split_ifs with hy
    · rfl
    · rw [hhead hy]

namespace FilePool.Sound

theorem nodup (h : s.Sound A F tables) : (allInodes tables ++ s.inUse).Nodup := h.owned.apart.nodup

theorem notInUse (h : s.Sound A F tables) (hx : x ∈ allInodes tables) : x ∉ s.inUse :=
  (List.nodup_append'.1 h.nodup).2.2 hx

theorem inodeIn (h : s.Sound A F tables) (hx : x ∈ allInodes tables ++ s.inUse) :
    ∃ p, InodeIn x p := by
  obtain ⟨p, hp, -⟩ := h.owned.apart.placed x hx
  exact ⟨p, hp⟩

theorem apart (h : s.Sound A F tables) (hx : x ∈ allInodes tables ++ s.inUse)
    (hy : y ∈ allInodes tables ++ s.inUse) : x = y ∨ x + 216 ≤ y ∨ y + 216 ≤ x := by
  by_cases hxy : x = y
  · exact .inl hxy
  · exact .inr (h.owned.apart.apart x hx y hy hxy)

/-- The inodes of a table lie on no chain twice. -/
theorem table_nodup (h : s.Sound A F tables) (hi : i < gCpuNums) : (tables i).Nodup := by
  have hall := (List.nodup_append'.1 h.nodup).1
  exact (List.nodup_append'.1 ((allInodes_perm tables hi).nodup_iff.1 hall)).1

theorem mem_table (hi : i < gCpuNums) (hx : x ∈ tables i) : x ∈ allInodes tables ++ s.inUse :=
  List.mem_append_left _ (mem_allInodes.2 ⟨i, hi, hx⟩)

theorem onTable (h : s.Sound A F tables) (hx : x ∈ allInodes tables) : s.OnTable x := by
  obtain ⟨i, hi, hxi⟩ := mem_allInodes.1 hx
  exact ⟨i, hi, tables i, h.chain i hi,
    fun hc => h.owned.apart.offsetNull_notMem (mem_table hi hc), hxi⟩

/-- The inode on a table owns its log page, and no other inode does. -/
theorem newFile (h : s.Sound A F tables) (hx : x ∈ allInodes tables ++ s.inUse)
    (hempty : EmptyFile s.state x) (howned : s.owned x = {AtfsInode.logHead.get s.state.mem x}) :
    s.NewFile x := by
  have hlog := h.owned.log x hx
  refine ⟨hempty, (h.owned.page x hx _ hlog).1, howned, fun y hyx hy hc => ?_⟩
  have hyall : y ∈ allInodes tables ++ s.inUse := by
    rcases hy with hy | ⟨i, hi, l, hl, hnull, hy⟩
    · exact List.mem_append_right _ hy
    · have hnull' : offsetNull ∉ tables i := fun hc =>
        h.owned.apart.offsetNull_notMem (mem_table hi hc)
      rw [hl.unique_of_end (h.chain i hi) hnull hnull'] at hy
      exact mem_table hi hy
  exact Set.disjoint_left.1 (h.owned.disjoint x hx y hyall (Ne.symm hyx)) hlog hc

/-- The use of a file leaves the free inodes alone. -/
theorem use {U : Set Nat} {u : State} (h : s.Sound A F tables) (hx : x ∈ s.inUse)
    (huse : Use A x s.inodes (s.used x) U s.state u) :
    ∃ F', FilePool.Sound A F' tables ⟨u, s.inUse, Function.update s.used x U⟩ := by
  have hxall : x ∈ allInodes tables ++ s.inUse := List.mem_append_right _ hx
  obtain ⟨F', hF', hsub, hdisj⟩ := huse.pages F h.rep
  have hkeep {y : Nat} (hy : y ∈ allInodes tables ++ s.inUse) (hyx : y ≠ x) :
      Set.EqOn u.mem s.state.mem (inodeBytes y) := by
    obtain ⟨p, hp⟩ := h.inodeIn hy
    have hpx := h.owned.inodePage y hy p hp x hxall
    rw [FilePool.owned_inUse hx] at hpx
    intro a ha
    refine huse.keeps F h.rep p hp.1 (h.owned.placed hy hp) hpx a ?_ ?_
    · have := hp.subset_bodyBytes ha
      rw [mem_bodyBytes] at this
      rw [mem_pageBytes]
      omega
    · have := h.owned.apart.apart y hy x hxall hyx
      rw [inodeBytes, Set.mem_Ico] at ha ⊢
      omega
  have hwords {y : Nat} (hy : y ∈ allInodes tables ++ s.inUse) (hyx : y ≠ x) :
      Set.EqOn u.mem s.state.mem (Set.Ico y (y + 80)) := fun a ha => hkeep hy hyx (by
    rw [Set.mem_Ico] at ha
    rw [inodeBytes, Set.mem_Ico]
    omega)
  have hfree {y : Nat} (hy : y ∈ allInodes tables) : y ∈ allInodes tables ++ s.inUse ∧ y ≠ x := by
    refine ⟨List.mem_append_left _ hy, ?_⟩
    rintro rfl
    exact h.notInUse hy hx
  refine ⟨F', hF', fun i hi => ?_, fun i hi => ?_, fun y hy => ?_, ?_⟩
  · simp only [table_get_congr hi huse.tables]
    refine (h.chain i hi).congr fun y hy => ?_
    have hyall := mem_allInodes.2 ⟨i, hi, hy⟩
    obtain ⟨p, hp⟩ := h.inodeIn (hfree hyall).1
    have hb := hp.bounds
    exact (inodeNext_congr (by omega) (hkeep (hfree hyall).1 (hfree hyall).2)).symm
  · simp only [table_get_congr hi huse.tables]
    exact h.count i hi
  · obtain ⟨hyall, hyx⟩ := hfree hy
    exact (h.empty y hy).congr (hwords hyall hyx) (huse.index y (.inr (h.onTable hy)) hyx)
  · have hU : s.owned x = s.used x := FilePool.owned_inUse hx
    have hex : Owned u.mem F' (Function.update s.owned x U) _ :=
      h.owned.exchange hxall (A.rep_page h.rep) (hU ▸ hsub) hdisj huse.log
      fun y hy hyx => logHead_congr (hwords hy hyx)
    have hown {y : Nat} (hy : y ∈ allInodes tables ++ s.inUse) :
        FilePool.owned ⟨u, s.inUse, Function.update s.used x U⟩ y = Function.update s.owned x U y :=
      FilePool.owned_update hx fun hyu => logHead_congr (hwords hy fun hc => hyu (hc ▸ hx))
    exact hex.mono (List.Subset.refl _) h.nodup (fun y hy => (hown hy).subset)
      fun y hy => (hown hy).symm ▸ hex.log y hy

/-- A release writes the links of the inode and of the head of a table. -/
theorem free_words (h : s.Sound A F tables) (hx : x ∈ s.inUse)
    (hy : y ∈ allInodes tables ++ s.inUse) :
    Set.EqOn (freeAtfsInode s.state x).mem s.state.mem (Set.Ico y (y + 80)) := by
  have hxall : x ∈ allInodes tables ++ s.inUse := List.mem_append_right _ hx
  obtain ⟨p, hxp⟩ := h.inodeIn hxall
  obtain ⟨q, hyq⟩ := h.inodeIn hy
  have hi := getCpuid_lt s.state.currentCpu
  rw [freeAtfsInode]
  rcases hcpu : getCpuid s.state.currentCpu with ⟨i, currentCpu⟩
  rw [hcpu] at hi
  have hchain := h.chain i hi
  simp only
  refine (setInodeNext_words hxp (h.apart hxall hy) _ _).trans ?_
  cases hl : tables i with
  | nil =>
    rw [hl] at hchain
    rw [segment_nil.1 hchain]
    exact setInodeNext_null_words hyq _ _
  | cons z rest =>
    rw [hl] at hchain
    have hz : z ∈ allInodes tables ++ s.inUse := mem_table hi (hl ▸ List.mem_cons_self)
    obtain ⟨r, hzr⟩ := h.inodeIn hz
    rw [hchain.head_eq]
    exact setInodeNext_words hzr (h.apart hz hy) _ _

/-- The allocator keeps its pages when an inode is linked, and so do the headers of the tables. -/
theorem link_rep (h : s.Sound A F tables) (hx : x ∈ allInodes tables ++ s.inUse) {m : Memory}
    (hm : A.Rep m F) (v : Nat) :
    A.Rep (setInodeNext m x v) F ∧ ∀ j < gCpuNums, ∀ f : Field 64,
      f.get (setInodeNext m x v) (getAtfsInodeTableAddr j) = f.get m (getAtfsInodeTableAddr j) := by
  obtain ⟨p, hxp, hpF⟩ := h.owned.apart.placed x hx
  exact ⟨hxp.rep_congr (s := { s.state with mem := m }) hm hpF (changesOnly_setInodeNext hxp m v),
    fun j hj f => table_get_setInodeNext hj hxp f m v⟩

theorem link_null_rep (h : s.Sound A F tables) (v : Nat) :
    A.Rep (setInodeNext s.state.mem offsetNull v) F ∧ ∀ j < gCpuNums, ∀ f : Field 64,
      f.get (setInodeNext s.state.mem offsetNull v) (getAtfsInodeTableAddr j) =
        f.get s.state.mem (getAtfsInodeTableAddr j) := by
  have hset := changesOnly_setInodeNext_null s.state.mem v
  refine ⟨A.rep_congr h.rep (hset.eqOn (null_apart (A.rep_page h.rep))), fun j hj f =>
    table_get_congr hj (hset.eqOn (Set.disjoint_left.2 fun a ha hc => ?_)) f⟩
  rw [Set.mem_Ico] at ha
  rw [tableBytes, Set.mem_Ico] at hc
  omega

/-- A release writes to no page that the allocator holds. -/
theorem free_eqOn (h : s.Sound A F tables) (hx : x ∈ s.inUse) :
    Set.EqOn (freeAtfsInode s.state x).mem s.state.mem (metadata ∪ bytesOf F) := by
  have hlink {y : Nat} (hy : y ∈ allInodes tables ++ s.inUse) (m : Memory) (v : Nat) :
      Set.EqOn (setInodeNext m y v) m (metadata ∪ bytesOf F) := by
    obtain ⟨p, hp, hpF⟩ := h.owned.apart.placed y hy
    exact (changesOnly_setInodeNext hp m v).eqOn (hp.apart (A.rep_page h.rep) hpF)
  have hi := getCpuid_lt s.state.currentCpu
  rw [freeAtfsInode]
  rcases hcpu : getCpuid s.state.currentCpu with ⟨i, currentCpu⟩
  rw [hcpu] at hi
  have hchain := h.chain i hi
  simp only
  refine (hlink (List.mem_append_right _ hx) _ _).trans ?_
  cases hl : tables i with
  | nil =>
    rw [hl] at hchain
    rw [segment_nil.1 hchain]
    exact (changesOnly_setInodeNext_null _ _).eqOn (null_apart (A.rep_page h.rep))
  | cons z rest =>
    rw [hl] at hchain
    rw [hchain.head_eq]
    exact hlink (mem_table hi (hl ▸ List.mem_cons_self)) _ _

/-- What a release of an empty file needs of the tables it leaves. -/
theorem released {tables' : Nat → List Nat} (h : s.Sound A F tables) (hx : x ∈ s.inUse)
    (hfree : EmptyFile s.state x) (hrep : A.Rep (freeAtfsInode s.state x).mem F)
    (hchain : ∀ i < gCpuNums, Segment (inodeNext (freeAtfsInode s.state x).mem)
      (AllocatorList.head.get (freeAtfsInode s.state x).mem (getAtfsInodeTableAddr i)) (tables' i)
      offsetNull)
    (hcount : ∀ i < gCpuNums, AllocatorList.count.get (freeAtfsInode s.state x).mem
      (getAtfsInodeTableAddr i) ≤ (tables' i).length)
    (hsub : allInodes tables' ⊆ x :: allInodes tables)
    (hnodup : (allInodes tables').Nodup) :
    FilePool.Sound A F tables' ⟨freeAtfsInode s.state x, s.inUse.erase x, s.used⟩ := by
  have hxall : x ∈ allInodes tables ++ s.inUse := List.mem_append_right _ hx
  have huse := (List.nodup_append'.1 h.nodup).2.1
  have hmem {y : Nat} (hy : y ∈ allInodes tables' ++ s.inUse.erase x) :
      y ∈ allInodes tables ++ s.inUse := by
    rcases List.mem_append.1 hy with hy | hy
    · rcases List.mem_cons.1 (hsub hy) with rfl | hy
      · exact hxall
      · exact List.mem_append_left _ hy
    · exact List.mem_append_right _ (List.mem_of_mem_erase hy)
  have hwords {y : Nat} (hy : y ∈ allInodes tables ++ s.inUse) := h.free_words hx hy
  refine ⟨hrep, hchain, hcount, fun y hy => ?_, h.owned.mono (fun y hy => hmem hy) ?_
    (fun y hy => ?_) fun y hy => ?_⟩
  · rcases List.mem_cons.1 (hsub hy) with rfl | hy
    · exact hfree.congr (hwords hxall) rfl
    · exact (h.empty y hy).congr (hwords (List.mem_append_left _ hy)) rfl
  · refine List.nodup_append'.2 ⟨hnodup, huse.erase x, fun y hy hy' => ?_⟩
    rcases List.mem_cons.1 (hsub hy) with rfl | hy
    · exact huse.not_mem_erase hy'
    · exact h.notInUse hy (List.mem_of_mem_erase hy')
  · simp only [FilePool.owned]
    split_ifs with hyu hyu' hyu'
    · rfl
    · exact absurd (List.mem_of_mem_erase hyu) hyu'
    · -- the file that is freed keeps the first page of its log
      rw [Set.singleton_subset_iff, logHead_congr (hwords (hmem hy))]
      exact FilePool.owned_inUse hyu' ▸ h.owned.log y (hmem hy)
    · rw [logHead_congr (hwords (hmem hy))]
  · simp only [FilePool.owned]
    split_ifs with hyu
    · rw [logHead_congr (hwords (hmem hy))]
      exact FilePool.owned_inUse (List.mem_of_mem_erase hyu) ▸ h.owned.log y (hmem hy)
    · rfl

/-- An empty file that is freed stands behind the head of a table, or on none. -/
theorem free (h : s.Sound A F tables) (hx : x ∈ s.inUse) (hfree : EmptyFile s.state x) :
    ∃ tables', FilePool.Sound A F tables' ⟨freeAtfsInode s.state x, s.inUse.erase x, s.used⟩ := by
  have hxall : x ∈ allInodes tables ++ s.inUse := List.mem_append_right _ hx
  have hall := (List.nodup_append'.1 h.nodup).1
  have hxtables : x ∉ allInodes tables := fun hc => h.notInUse hc hx
  have hi := getCpuid_lt s.state.currentCpu
  rcases hcpu : getCpuid s.state.currentCpu with ⟨i, currentCpu⟩
  rw [hcpu] at hi
  have hchain := h.chain i hi
  have hmem : (freeAtfsInode s.state x).mem = setInodeNext (setInodeNext s.state.mem
      (AllocatorList.head.get s.state.mem (getAtfsInodeTableAddr i)) x) x
      (inodeNext s.state.mem (AllocatorList.head.get s.state.mem (getAtfsInodeTableAddr i))) := by
    rw [freeAtfsInode, hcpu]
  obtain ⟨p, hxp⟩ := h.inodeIn hxall
  have hother {j y : Nat} (hj : j < gCpuNums) (hy : y ∈ tables j) :
      y ∈ allInodes tables ++ s.inUse ∧ x ≠ y := by
    refine ⟨mem_table hj hy, ?_⟩
    rintro rfl
    exact hxtables (mem_allInodes.2 ⟨j, hj, hy⟩)
  have hnext {j y : Nat} (hj : j < gCpuNums) (hy : y ∈ tables j) (m : Memory) (v : Nat) :
      inodeNext (setInodeNext m x v) y = inodeNext m y := by
    obtain ⟨hyall, hxy⟩ := hother hj hy
    obtain ⟨q, hyq⟩ := h.inodeIn hyall
    exact inodeNext_set_of_apart hxp hyq (h.owned.apart.apart x hxall y hyall hxy) m v
  cases hl : tables i with
  | nil =>
    rw [hl] at hchain
    rw [segment_nil.1 hchain] at hmem
    obtain ⟨hrep, hget⟩ := h.link_null_rep x
    obtain ⟨hrep', hget'⟩ := h.link_rep hxall hrep (inodeNext s.state.mem offsetNull)
    refine ⟨tables, h.released hx hfree (hmem ▸ hrep') (fun j hj => ?_) (fun j hj => ?_)
      (List.subset_cons_self _ _) hall⟩
    · rw [hmem, hget' j hj, hget j hj]
      refine (h.chain j hj).congr fun y hy => ?_
      obtain ⟨q, hyq⟩ := h.inodeIn (hother hj hy).1
      have hb := hyq.bounds
      rw [hnext hj hy]
      refine (inodeNext_congr (by omega) ((changesOnly_setInodeNext_null _ _).eqOn
        (Set.disjoint_left.2 fun a ha hc => ?_))).symm
      rw [Set.mem_Ico] at ha
      rw [inodeBytes, Set.mem_Ico] at hc
      omega
    · rw [hmem, hget' j hj, hget j hj]
      exact h.count j hj
  | cons z rest =>
    rw [hl] at hchain
    rw [hchain.head_eq] at hmem
    have hzmem : z ∈ tables i := hl ▸ List.mem_cons_self
    obtain ⟨q, hzq⟩ := h.inodeIn (hother hi hzmem).1
    obtain ⟨hrep, hget⟩ := h.link_rep (hother hi hzmem).1 h.rep x
    obtain ⟨hrep', hget'⟩ := h.link_rep hxall hrep (inodeNext s.state.mem z)
    have hnodup : (z :: rest).Nodup := hl ▸ h.table_nodup hi
    have hperm := allInodes_update tables hi (z :: x :: rest)
    have hperm' : (allInodes (Function.update tables i (z :: x :: rest))).Perm
        (x :: allInodes tables) := by
      refine hperm.trans ?_
      have := (allInodes_perm tables hi).cons x
      rw [hl] at this
      exact (List.Perm.swap x z _).trans this.symm
    refine ⟨Function.update tables i (z :: x :: rest), h.released hx hfree (hmem ▸ hrep')
      (fun j hj => ?_) (fun j hj => ?_) hperm'.subset
      (hperm'.nodup_iff.2 (List.nodup_cons.2 ⟨hxtables, hall⟩))⟩
    · rw [hmem, hget' j hj, hget j hj]
      by_cases hji : j = i
      · subst hji
        rw [Function.update_self]
        exact h.owned.apart.link hxall (fun y hy => hother hj (hl ▸ hy)) hnodup hchain
      · rw [Function.update_of_ne hji]
        refine (h.chain j hj).congr fun y hy => ?_
        obtain ⟨r, hyr⟩ := h.inodeIn (hother hj hy).1
        have hzy : z ≠ y := by
          rintro rfl
          exact allInodes_disjoint hall hi hj (Ne.symm hji) hzmem hy
        rw [hnext hj hy, inodeNext_set_of_apart hzq hyr
          (h.owned.apart.apart z (hother hi hzmem).1 y (hother hj hy).1 hzy)]
    · rw [hmem, hget' j hj, hget j hj]
      refine (h.count j hj).trans ?_
      by_cases hji : j = i
      · subst hji
        rw [Function.update_self, hl]
        exact Nat.succ_le_succ (Nat.le_succ _)
      · rw [Function.update_of_ne hji]

theorem withCpu (h : s.Sound A F tables) (currentCpu : Nat) :
    FilePool.Sound A F tables ⟨{ s.state with currentCpu }, s.inUse, s.used⟩ :=
  ⟨h.rep, h.chain, h.count, fun x hx => ⟨(h.empty x hx).inode, (h.empty x hx).index⟩, h.owned⟩

/-- A refill leaves the inodes that were on the table; the new ones are empty files. -/
theorem refill (hA : KeepsTables A) (h : s.Sound A F tables) (hi : i < gCpuNums)
    (hzero : AllocatorList.count.get s.state.mem (getAtfsInodeTableAddr i) = 0) {u : State}
    (hfill : fillAtfsInodeList A s.state (getAtfsInodeTableAddr i) = .ok u)
    (hclean : ∀ node t, A.allocFreePages s.state atfsInodePerAlloc = .ok (node, t) →
      ∀ x ∈ pageInodes (ListNode.offset.get t.mem node) 18, s.state.index x = fun _ => offsetNull) :
    ∃ F' p, FilePool.Sound A F' (Function.update tables i (pageInodes p 18))
      ⟨u, s.inUse, s.used⟩ := by
  obtain ⟨F', p, hF', hsub, hpF, hpF', hholds, hother, hkeep, hfilled, hindex, t, halloc, hoff⟩ :=
    fillAtfsInodeList_spec hA hi h.rep hfill
  have hp := A.rep_page h.rep p hpF
  have hkeepInode {y : Nat} (hy : y ∈ allInodes tables ++ s.inUse) :
      Set.EqOn u.mem s.state.mem (inodeBytes y) := by
    obtain ⟨q, hyq, hqF⟩ := h.owned.apart.placed y hy
    refine fun a ha => hkeep q hyq.1 hqF ?_
    have := hyq.subset_bodyBytes ha
    rw [mem_bodyBytes] at this
    rw [mem_pageBytes]
    omega
  have hwords {y : Nat} (hy : y ∈ allInodes tables ++ s.inUse) :
      Set.EqOn u.mem s.state.mem (Set.Ico y (y + 80)) := fun a ha => hkeepInode hy (by
    rw [Set.mem_Ico] at ha
    rw [inodeBytes, Set.mem_Ico]
    omega)
  -- the inodes of the table are dropped, then those of the page are added
  have hdrop :
      allInodes (Function.update tables i []) ++ s.inUse ⊆ allInodes tables ++ s.inUse := by
    intro y hy
    rcases List.mem_append.1 hy with hy | hy
    swap
    · exact List.mem_append_right _ hy
    obtain ⟨j, hj, hy⟩ := mem_allInodes.1 hy
    refine List.mem_append_left _ ?_
    by_cases hji : j = i
    · subst hji
      rw [Function.update_self] at hy
      exact absurd hy List.not_mem_nil
    · rw [Function.update_of_ne hji] at hy
      exact mem_allInodes.2 ⟨j, hj, hy⟩
  have hnodup : (allInodes (Function.update tables i []) ++ s.inUse).Nodup := by
    have hperm := (allInodes_perm tables hi).append_right s.inUse
    rw [List.append_assoc] at hperm
    refine (((allInodes_update tables hi []).append_right s.inUse).nodup_iff).2 ?_
    exact (List.nodup_append'.1 (hperm.nodup_iff.1 h.nodup)).2.1
  have hold := h.owned.mono hdrop hnodup (fun y _ => subset_rfl) fun y hy =>
    h.owned.log y (hdrop hy)
  have hperm : (allInodes (Function.update tables i (pageInodes p 18)) ++ s.inUse).Perm
      (pageInodes p 18 ++ (allInodes (Function.update tables i []) ++ s.inUse)) := by
    rw [← List.append_assoc]
    refine List.Perm.append_right s.inUse ((allInodes_update tables hi _).trans ?_)
    exact (allInodes_update tables hi []).symm.append_left _
  have hnotOld {y : Nat} (hy : y ∈ pageInodes p 18) : y ∉ allInodes tables ++ s.inUse :=
    fun hc => by
    obtain ⟨q, hyq, hqF⟩ := h.owned.apart.placed y hc
    exact hqF (hyq.page_unique (InodesApart.pageInodes_in hp hy) ▸ hpF)
  have hnew : Owned _ _ (FilePool.owned ⟨u, s.inUse, s.used⟩) _ :=
    hold.fill (A.rep_page h.rep) hpF hsub hpF'
    hfilled (fun y hy => logHead_congr (hwords (hdrop hy))) (fun y hy => by
      simp only [FilePool.owned, logHead_congr (hwords (hdrop hy))])
    fun y hy => FilePool.owned_free fun hc => hnotOld hy (List.mem_append_right _ hc)
  refine ⟨F', p, hF', fun j hj => ?_, fun j hj => ?_, fun y hy => ?_,
    hnew.mono hperm.subset (hperm.nodup_iff.2 hnew.apart.nodup) (fun y _ => subset_rfl)
      fun y hy => hnew.log y (hperm.subset hy)⟩
  · by_cases hji : j = i
    · subst hji
      rw [Function.update_self]
      exact hholds.chain
    · rw [Function.update_of_ne hji, hother j hji hj]
      refine (h.chain j hj).congr fun y hy =>
        (inodeNext_congr ?_ (hkeepInode (mem_table hj hy))).symm
      have := h.owned.apart.bounds (mem_table hj hy)
      omega
  · by_cases hji : j = i
    · subst hji
      rw [Function.update_self]
      exact hholds.count.le
    · rw [Function.update_of_ne hji, hother j hji hj]
      exact h.count j hj
  · obtain ⟨j, hj, hy⟩ := mem_allInodes.1 hy
    by_cases hji : j = i
    · subst hji
      rw [Function.update_self] at hy
      refine ⟨hfilled.new y hy, ?_⟩
      rw [hindex]
      exact hclean _ t halloc y (by rwa [hoff])
    · rw [Function.update_of_ne hji] at hy
      exact (h.empty y (mem_allInodes.2 ⟨j, hj, hy⟩)).congr (hwords (mem_table hj hy))
        (congrFun hindex y)

/-- The head of a table is handed out as it is. -/
theorem pop (hA : KeepsTables A) (h : s.Sound A F tables) (hi : i < gCpuNums) {rest : List Nat}
    (hx : tables i = x :: rest) {n : Nat}
    (hcount : AllocatorList.count.get s.state.mem (getAtfsInodeTableAddr i) = n + 1) :
    ∃ t tables', popAtfsInode s.state (getAtfsInodeTableAddr i) = (x, t) ∧ EmptyFile t x ∧
      FilePool.Sound A F tables'
        ⟨t, x :: s.inUse, Function.update s.used x {AtfsInode.logHead.get t.mem x}⟩ := by
  have hchain := h.chain i hi
  rw [hx] at hchain
  have hxmem : x ∈ tables i := hx ▸ List.mem_cons_self
  have hxall := mem_table (s := s) hi hxmem
  have hxtables : x ∈ allInodes tables := mem_allInodes.2 ⟨i, hi, hxmem⟩
  obtain ⟨p, hin, hpF⟩ := h.owned.apart.placed x hxall
  obtain ⟨t, hpop, hkeep, hhead, hcount', hother⟩ := popAtfsInode_spec hi hin hchain.head_eq hcount
  have hwords {y : Nat} (hy : y ∈ allInodes tables ++ s.inUse) :
      Set.EqOn t.mem s.state.mem (Set.Ico y (y + 80)) := by
    obtain ⟨q, hyq⟩ := h.inodeIn hy
    have := popAtfsInode_words hi hin hchain.head_eq hyq (h.apart hxall hy)
    rwa [hpop] at this
  have hindex : t.index = s.state.index := by
    have := congrArg (fun r => r.2.index) hpop
    exact this.symm
  have hperm : (allInodes (Function.update tables i rest) ++ x :: s.inUse).Perm
      (allInodes tables ++ s.inUse) :=
    List.perm_middle.trans (((allInodes_pop hi hx).append_right s.inUse))
  have hnodup := hperm.nodup_iff.2 h.nodup
  have hleft {j y : Nat} (hj : j < gCpuNums) (hy : y ∈ Function.update tables i rest j) :
      y ∈ allInodes tables ++ s.inUse ∧ x ≠ y := by
    have hyl : y ∈ allInodes (Function.update tables i rest) := mem_allInodes.2 ⟨j, hj, hy⟩
    refine ⟨hperm.mem_iff.1 (List.mem_append_left _ hyl), ?_⟩
    rintro rfl
    exact (List.nodup_append'.1 hnodup).2.2 hyl List.mem_cons_self
  have hnext {j y : Nat} (hj : j < gCpuNums) (hy : y ∈ Function.update tables i rest j) :
      inodeNext t.mem y = inodeNext s.state.mem y := by
    obtain ⟨hyall, hxy⟩ := hleft hj hy
    obtain ⟨q, hyq⟩ := h.inodeIn hyall
    exact inodeNext_keep hyq (h.owned.apart.apart x hxall y hyall hxy) hkeep
  have hempty {y : Nat} (hy : y ∈ allInodes tables) : EmptyFile t y :=
    (h.empty y hy).congr (hwords (List.mem_append_left _ hy)) (congrFun hindex y)
  have howned {y : Nat} (hy : y ∈ allInodes tables ++ s.inUse) : FilePool.owned
      ⟨t, x :: s.inUse, Function.update s.used x {AtfsInode.logHead.get t.mem x}⟩ y =
        s.owned y := by
    by_cases hyx : y = x
    · subst hyx
      rw [FilePool.owned_inUse List.mem_cons_self, FilePool.owned_free (h.notInUse hxtables),
        ← logHead_congr (hwords hxall)]
      exact Function.update_self _ _ _
    · simp only [FilePool.owned, List.mem_cons, hyx, false_or, Function.update_of_ne hyx,
        logHead_congr (hwords hy)]
  refine ⟨t, Function.update tables i rest, hpop, hempty hxtables, hA.rep_inode h.rep hin hpF hkeep,
    fun j hj => ?_, fun j hj => ?_, fun y hy => ?_, h.owned.mono hperm.subset hnodup
      (fun y hy => (howned (hperm.subset hy)).subset) fun y hy => ?_⟩
  · by_cases hji : j = i
    · subst hji
      rw [hhead]
      have hrest := hchain.2
      refine (Function.update_self j rest tables).symm ▸ hrest.congr fun y hy => (hnext hj ?_).symm
      rwa [Function.update_self]
    · rw [hother j hji hj, Function.update_of_ne hji]
      refine (h.chain j hj).congr fun y hy => (hnext hj ?_).symm
      rwa [Function.update_of_ne hji]
  · by_cases hji : j = i
    · subst hji
      have hle := h.count j hj
      rw [hcount, hx, List.length_cons] at hle
      rw [Function.update_self, hcount']
      omega
    · rw [hother j hji hj, Function.update_of_ne hji]
      exact h.count j hj
  · obtain ⟨j, hj, hy⟩ := mem_allInodes.1 hy
    refine hempty ?_
    by_cases hji : j = i
    · subst hji
      rw [Function.update_self] at hy
      exact mem_allInodes.2 ⟨j, hj, hx ▸ List.mem_cons_of_mem _ hy⟩
    · rw [Function.update_of_ne hji] at hy
      exact mem_allInodes.2 ⟨j, hj, hy⟩
  · have hy' := hperm.subset hy
    rw [howned hy', logHead_congr (hwords hy')]
    exact h.owned.log y hy'

/-- An allocation hands out an empty file. -/
theorem alloc (hA : KeepsTables A) (h : s.Sound A F tables) (hclean : s.Clean A (.alloc x))
    {u : State} (halloc : allocAtfsInode A s.state = .ok (x, u)) :
    ∃ F' tables', FilePool.Sound A F' tables'
        ⟨u, x :: s.inUse, Function.update s.used x {AtfsInode.logHead.get u.mem x}⟩ ∧
      FilePool.NewFile
        ⟨u, x :: s.inUse, Function.update s.used x {AtfsInode.logHead.get u.mem x}⟩ x := by
  have hi := getCpuid_lt s.state.currentCpu
  unfold FilePool.Clean at hclean
  rcases hcpu : getCpuid s.state.currentCpu with ⟨i, currentCpu⟩
  rw [hcpu] at hi hclean
  obtain ⟨t₁, hpop, hfill⟩ := allocAtfsInode_ok hcpu halloc
  obtain ⟨F₁, tables₁, h₁, n, hcount⟩ : ∃ F₁ tables₁,
      FilePool.Sound A F₁ tables₁ ⟨t₁, s.inUse, s.used⟩ ∧
      ∃ n, AllocatorList.count.get t₁.mem (getAtfsInodeTableAddr i) = n + 1 := by
    rcases hfill with ⟨hzero, hfill⟩ | ⟨hzero, rfl⟩
    · obtain ⟨F', p, hs⟩ := (h.withCpu currentCpu).refill hA hi hzero hfill (hclean hzero)
      obtain ⟨_, _, -, -, -, -, hholds, -⟩ :=
        fillAtfsInodeList_spec hA hi (h.withCpu currentCpu).rep hfill
      exact ⟨F', _, hs, 17, hholds.count⟩
    · exact ⟨F, tables, h.withCpu currentCpu, Nat.exists_eq_succ_of_ne_zero hzero⟩
  have hne : tables₁ i ≠ [] := fun hnil => by
    have hle := h₁.count i hi
    rw [hcount, hnil, List.length_nil] at hle
    omega
  obtain ⟨y, rest, hy⟩ := List.exists_cons_of_ne_nil hne
  obtain ⟨t₂, tables', hpop', hempty, hs⟩ := h₁.pop hA hi hy hcount
  obtain ⟨rfl, rfl⟩ := Prod.mk.inj (hpop'.symm.trans hpop)
  refine ⟨F₁, tables', hs, hs.newFile (List.mem_append_right _ List.mem_cons_self) hempty ?_⟩
  rw [FilePool.owned_inUse List.mem_cons_self]
  exact Function.update_self _ _ _

/-- Every step of a run keeps the free inodes empty files. -/
theorem step (hA : KeepsTables A) (h : s.Sound A F tables) {e : FileEvent} (hclean : s.Clean A e)
    (hstep : FileStep A s e t) : ∃ F' tables', t.Sound A F' tables' := by
  cases hstep with
  | alloc halloc =>
    obtain ⟨F', tables', hs, -⟩ := h.alloc hA hclean halloc
    exact ⟨F', tables', hs⟩
  | use hx huse =>
    obtain ⟨F', hs⟩ := h.use hx huse
    exact ⟨F', tables, hs⟩
  | free hx =>
    obtain ⟨tables', hs⟩ := h.free hx hclean
    exact ⟨F, tables', hs⟩

theorem run (hA : KeepsTables A) (h : s.Sound A F tables) {steps : List (FilePool × FileEvent)}
    (run : Run (FileStep A) s steps t) (hclean : ∀ p ∈ steps, p.1.Clean A p.2) :
    ∃ F' tables', t.Sound A F' tables' := by
  refine run.always (J := fun u => ∃ F' tables', u.Sound A F' tables') (Q := FilePool.Clean A)
    ⟨F, tables, h⟩ ?_ hclean t (by simp [visited])
  rintro s e t ⟨F, tables, hs⟩ hstep hclean
  exact hs.step hA hclean hstep

end FilePool.Sound

end Steps

end Atfs
