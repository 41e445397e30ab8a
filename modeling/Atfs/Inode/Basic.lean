import Atfs.Allocator.Room
import Atfs.Log.Step

/-!
# Inodes (inode.c)

`init_atfs_inode` gives a new inode an empty log of one page. It clears the words of the
inode, but not the counters in the node of that page.
-/

namespace Atfs

open ByteMemory LinkedChain

def initAtfsInode (A : PageAllocator) (s : State) (inodeNode : Nat) : Except Fault State := do
  let m := AtfsInode.valid.set s.mem inodeNode 0
  let m := AtfsInode.deleted.set m inodeNode 0
  let m := AtfsInode.iSize.set m inodeNode 0
  -- -1 as a `u32`
  let m := AtfsInode.fd.set m inodeNode (2 ^ 32 - 1)
  let (pages, s) ← A.allocFreePages { s with mem := m } writeLogPerAlloc
  let page := ListNode.offset.get s.mem pages
  let m := AtfsInode.logHead.set s.mem inodeNode page
  let m := AtfsInode.logTail.set m inodeNode page
  let m := AtfsInode.fileOff.set m inodeNode 0
  let m := pthreadMutexInit m (inodeNode + AtfsInode.mutex.off)
  .ok { s with mem := m, trace := .logPage page :: s.trace }

/-- The inode lies in the body of page `p`. -/
def InodeIn (inode p : Nat) : Prop := IsPage p ∧ p ≤ inode ∧ inode + sizeofAtfsInode ≤ p + 4096

/-- The bytes of an inode. -/
def inodeBytes (inode : Nat) : Set Nat := Set.Ico inode (inode + 216)

section Init

variable {A : PageAllocator} {F : Set Nat} {s s' : State} {inode p : Nat}

theorem AtfsInode.changesOnly (f : Field 216) (m : Memory) (inode v : Nat) :
    ChangesOnly (inodeBytes inode) m (f.set m inode v) :=
  (f.changesOnly_set m inode v).mono fun a ha => by
    have := f.fits
    rw [Field.bytes, Set.mem_Ico] at ha
    rw [inodeBytes, Set.mem_Ico]
    omega

/-- The inode lies in its page. -/
theorem InodeIn.subset_page (h : InodeIn inode p) : inodeBytes inode ⊆ pageBytes p := by
  obtain ⟨-, hle, hle'⟩ := h
  intro a ha
  rw [show sizeofAtfsInode = 216 from rfl] at hle'
  rw [inodeBytes, Set.mem_Ico] at ha
  rw [mem_pageBytes]
  omega

/-- An inode shares no byte with the pages it does not lie in. -/
theorem InodeIn.disjoint_page (h : InodeIn inode p) {q : Nat} (hq : IsPage q) (hne : q ≠ p) :
    Disjoint (inodeBytes inode) (pageBytes q) := by
  refine Set.disjoint_left.2 fun a ha hc => ?_
  have ha := h.subset_page ha
  have := hq.apart h.1 hne
  rw [mem_pageBytes] at ha hc
  omega

/-- An inode in a page in use shares no byte with the allocator. -/
theorem InodeIn.apart (h : InodeIn inode p) (hF : ∀ q ∈ F, IsPage q) (hpF : p ∉ F) :
    Disjoint (inodeBytes inode) (metadata ∪ bytesOf F) := by
  obtain ⟨hp, hle, hle'⟩ := h
  rw [show sizeofAtfsInode = 216 from rfl] at hle'
  have hbounds := hp.bounds
  rw [Set.disjoint_left]
  intro a ha hc
  have hmem : a ∈ pageBytes p := by
    rw [inodeBytes, Set.mem_Ico] at ha
    rw [mem_pageBytes]
    omega
  rcases hc with hc | hc
  · rw [mem_metadata] at hc
    rw [mem_pageBytes] at hmem
    omega
  · exact not_mem_bytesOf hF hp hpF hmem hc

theorem InodeIn.rep_congr (h : InodeIn inode p) (hF : A.Rep s.mem F) (hpF : p ∉ F) {m' : Memory}
    (hm : ChangesOnly (inodeBytes inode) s.mem m') : A.Rep m' F :=
  A.rep_congr hF (hm.eqOn (h.apart (A.rep_page hF) hpF))

/-- What `init_atfs_inode` leaves: the page `f.page` was free and is the whole log. -/
structure Initialised (A : PageAllocator) (F : Set Nat) (s s' : State) (inode : Nat)
    (f : Frontier) :
    Prop where
  holds : f.Holds A s'.mem
  tail : f.tail = f.page
  sub : f.free ⊆ F
  fresh : f.page ∈ F
  logHead : AtfsInode.logHead.get s'.mem inode = f.page
  logTail : AtfsInode.logTail.get s'.mem inode = f.page
  iSize : AtfsInode.iSize.get s'.mem inode = 0
  fileOff : AtfsInode.fileOff.get s'.mem inode = 0
  chain : PageChain s'.mem f.page [f.page]
  frame : ChangesOnly (allocatorBytes F ∪ inodeBytes inode) s.mem s'.mem
  index : s'.index = s.index
  trace : s'.trace = .logPage f.page :: .alloc (f.page + 4096) 1 :: s.trace

/-- The words `init_atfs_inode` sets once it has the log page. -/
def setLog (m : Memory) (inode page : Nat) : Memory :=
  pthreadMutexInit
    (AtfsInode.fileOff.set (AtfsInode.logTail.set (AtfsInode.logHead.set m inode page)
    inode page) inode 0) (inode + AtfsInode.mutex.off)

theorem changesOnly_setLog (m : Memory) (inode page : Nat) :
    ChangesOnly (inodeBytes inode) m (setLog m inode page) := by
  refine (((AtfsInode.changesOnly _ m inode page).trans
    (AtfsInode.changesOnly _ _ inode page)).trans
    (AtfsInode.changesOnly _ _ inode 0)).trans ((changesOnly_fill _ _ 40 0).mono fun a ha => ?_)
  rw [AtfsInode.mutex_off, Set.mem_Ico] at ha
  rw [inodeBytes, Set.mem_Ico]
  omega

variable (inode) in
theorem get_setLog (m : Memory) {page : Nat} (hpage : page < 2 ^ 64) :
    AtfsInode.logHead.get (setLog m inode page) inode = page ∧
      AtfsInode.logTail.get (setLog m inode page) inode = page ∧
      AtfsInode.fileOff.get (setLog m inode page) inode = 0 ∧
      AtfsInode.iSize.get (setLog m inode page) inode = AtfsInode.iSize.get m inode := by
  have mutex (f : Field 216) (hf : f.off + f.size ≤ 176) (m : Memory) :
      f.get (pthreadMutexInit m (inode + AtfsInode.mutex.off)) inode = f.get m inode :=
    Field.get_fill_of_disjoint (by rw [AtfsInode.mutex_off]; omega)
  rw [setLog, mutex _ (by decide), mutex _ (by decide), mutex _ (by decide), mutex _ (by decide)]
  refine ⟨?_, ?_, Field.get_set_self _ _ _ _, ?_⟩
  · rw [Field.get_set_of_disjoint _ _ _ (by simp), Field.get_set_of_disjoint _ _ _ (by simp),
      Field.get_set_self_of_lt _ _ hpage]
  · rw [Field.get_set_of_disjoint _ _ _ (by simp), Field.get_set_self_of_lt _ _ hpage]
  · rw [Field.get_set_of_disjoint _ _ _ (by simp), Field.get_set_of_disjoint _ _ _ (by simp),
      Field.get_set_of_disjoint _ _ _ (by simp)]

/-- A new inode has an empty log in a page that was free. -/
theorem initAtfsInode_spec (hF : A.Rep s.mem F) (hin : InodeIn inode p) (hpF : p ∉ F)
    (h : initAtfsInode A s inode = .ok s') : ∃ f, Initialised A F s s' inode f := by
  rw [initAtfsInode] at h
  obtain ⟨⟨node, s₁⟩, halloc, h⟩ := bind_eq_ok.1 h
  generalize hm : AtfsInode.fd.set (AtfsInode.iSize.set (AtfsInode.deleted.set
    (AtfsInode.valid.set s.mem inode 0) inode 0) inode 0) inode (2 ^ 32 - 1) = m at halloc
  have hwords : ChangesOnly (inodeBytes inode) s.mem m := hm ▸
    (((AtfsInode.changesOnly _ _ _ _).trans (AtfsInode.changesOnly _ _ _ _)).trans
      (AtfsInode.changesOnly _ _ _ _)).trans (AtfsInode.changesOnly _ _ _ _)
  have hrep : A.Rep m F := hin.rep_congr hF hpF hwords
  obtain ⟨T, l, F', rfl, hlen, hall⟩ := PageAllocator.allocFreePages_spec (s := { s with mem := m })
    hrep le_rfl halloc
  obtain ⟨q, rfl⟩ : ∃ q, l = [q] := List.length_eq_one_iff.1 hlen
  obtain rfl : T = q := hall.chain.chain.head_eq
  have hT : IsPage T := hall.chain.page T (by simp)
  have hTF : T ∈ F := hall.fresh T (by simp)
  have hTp : T ≠ p := by
    rintro rfl
    exact hpF hTF
  have hTF' : T ∉ F' := fun hc => (hall.rest T hc).2 (by simp)
  have hpF' : p ∉ F' := fun hc => hpF (hall.rest p hc).1
  obtain rfl : { s₁ with mem := setLog s₁.mem inode T, trace := .logPage T :: s₁.trace } = s' := by
    have hoff : ListNode.offset.get s₁.mem (T + 4096) = T := hall.chain.offset T (by simp)
    simp only [hoff, Except.ok.injEq] at h
    exact h
  have hset := changesOnly_setLog s₁.mem inode T
  obtain ⟨hhead, htail, hoff, hsize⟩ := get_setLog inode s₁.mem
    (show T < 2 ^ 64 by have := hT.bounds; omega)
  obtain ⟨hp, hle, hle'⟩ := hin
  rw [show sizeofAtfsInode = 216 from rfl] at hle'
  refine ⟨⟨F', T, T⟩, ⟨?_, hT, hTF', le_rfl, Nat.le_add_right _ _⟩, rfl,
    fun q hq => (hall.rest q hq).1, hTF, hhead, htail, ?_, hoff, ?_, ?_, hall.index, ?_⟩
  · exact InodeIn.rep_congr ⟨hp, hle, hle'⟩ hall.rep hpF' hset
  · have hkeep : AtfsInode.iSize.get s₁.mem inode = AtfsInode.iSize.get m inode := by
      refine Field.get_congr fun a ha => ?_
      simp only [Field.bytes, AtfsInode.iSize_off, AtfsInode.iSize_size, Set.mem_Ico] at ha
      exact hall.keeps hrep hp hpF (by rw [mem_pageBytes]; omega)
    rw [hsize, hkeep, ← hm, Field.get_set_of_disjoint _ _ _ (by simp), Field.get_set_self]
    rfl
  · refine hall.chain.congr fun q hq a ha => hset a fun hc => ?_
    obtain rfl := List.mem_singleton.1 hq
    have := hT.apart hp hTp
    rw [Set.mem_Ico] at ha
    rw [inodeBytes, Set.mem_Ico] at hc
    omega
  · exact ((hwords.mono Set.subset_union_right).trans (hall.frame.mono Set.subset_union_left)).trans
      (hset.mono Set.subset_union_right)
  · rw [hall.trace]
    rfl

/-- A new inode takes one page. -/
theorem PageAllocator.Supply.initAtfsInode {n : Nat} (S : A.Supply) (hF : A.Rep s.mem F)
    (hin : InodeIn inode p) (hpF : p ∉ F) (h : S.Has (n + 1) s.mem) :
    ∃ s', Atfs.initAtfsInode A s inode = .ok s' ∧ S.Has n s'.mem := by
  generalize hm : AtfsInode.fd.set (AtfsInode.iSize.set (AtfsInode.deleted.set
    (AtfsInode.valid.set s.mem inode 0) inode 0) inode 0) inode (2 ^ 32 - 1) = m
  have hwords : ChangesOnly (inodeBytes inode) s.mem m := hm ▸
    (((AtfsInode.changesOnly _ _ _ _).trans (AtfsInode.changesOnly _ _ _ _)).trans
      (AtfsInode.changesOnly _ _ _ _)).trans (AtfsInode.changesOnly _ _ _ _)
  have hrep : A.Rep m F := hin.rep_congr hF hpF hwords
  have hhas : S.Has (n + 1) m := S.congr hF h (hwords.eqOn (hin.apart (A.rep_page hF) hpF))
  obtain ⟨node, s₁, halloc, hhas₁⟩ :=
    S.allocFreePages (s := { s with mem := m }) hrep le_rfl (by decide) hhas
  obtain ⟨T, l, F', -, -, hall⟩ :=
    PageAllocator.allocFreePages_spec (s := { s with mem := m }) hrep le_rfl halloc
  have hpF' : p ∉ F' := fun hc => hpF (hall.rest p hc).1
  have hset := changesOnly_setLog s₁.mem inode (ListNode.offset.get s₁.mem node)
  rw [Atfs.initAtfsInode, hm]
  exact ⟨_, bind_eq_ok.2 ⟨_, halloc, rfl⟩,
    S.congr hall.rep hhas₁ (hset.eqOn (hin.apart (A.rep_page hall.rep) hpF'))⟩

/-- With one page to spare on every list a new inode gets its log. -/
theorem Stocked.initAtfsInode {F : Set Nat} {n inode p : Nat} (h : Stocked A s.mem F (n + 1))
    (hA : A.Follows) (hin : InodeIn inode p) (hpF : p ∉ F) :
    ∃ s' F', Atfs.initAtfsInode A s inode = .ok s' ∧ Stocked A s'.mem F' n := by
  obtain ⟨s', hinit, hroomy⟩ := hA.supply.initAtfsInode h.rep hin hpF h.roomy
  obtain ⟨f, hnew⟩ := initAtfsInode_spec h.rep hin hpF hinit
  exact ⟨s', f.free, hinit, hnew.holds.rep, hroomy⟩

end Init

/-! ## A file on the repository's allocator -/

/-- The inode of the file, its log page and the first page that is neither. -/
def fileInode : Nat := pageOff 4096
def fileLog : Nat := pageOff 4097

/-- The bodies of the pages: the words of the inode and, elsewhere, `body`. -/
def fileBody (size : Nat) (body : Nat → Nat → UInt8) (k o : Nat) : UInt8 :=
  if k = 4096 then
    if 8 ≤ o ∧ o < 16 then wordByte size (o - 8)
    else if 56 ≤ o ∧ o < 64 then wordByte fileLog (o - 56)
    else if 64 ≤ o ∧ o < 72 then wordByte fileLog (o - 64)
    else 0
  else body k o

/-- A file of `size` bytes with an empty log; every local list has 64 pages, and the bodies of the
other pages and the index are whatever the caller puts there. -/
def fileState (size : Nat) (body : Nat → Nat → UInt8) (index : Nat → Nat) : State where
  mem := (freeImage 0 64 (fileBody size body)).mem
  index := fun inode => if inode = fileInode then index else fun _ => offsetNull
  currentCpu := 0
  trace := []

def fileFrontier : Frontier := ⟨freeOf (freeLists 0 64), fileLog, fileLog⟩

theorem fileFrontier_room : fileFrontier.tail ≤ fileFrontier.page + 4048 := by
  rw [fileFrontier]
  simp only
  omega

section File

variable {size : Nat} {body : Nat → Nat → UInt8} {index : Nat → Nat}

theorem fileState_wellFormed : WellFormed (fileState size body index).mem (freeLists 0 64) :=
  freeImage_wellFormed (by decide) (by decide)

/-- The pages from number 4096 on are not free. -/
theorem pageOff_not_free {k : Nat} (hk : 4096 ≤ k) : pageOff k ∉ fileFrontier.free := by
  rintro ⟨i, hi, hp⟩
  rw [gCpuNums] at hi
  obtain ⟨k', hkk, ⟨-, hlt⟩ | ⟨-, -, hlt⟩⟩ := mem_freeLists.1 hp
  · omega
  · have := pageOff_injective hkk
    omega

theorem fileState_body {k o : Nat} (ho : o < 4096) :
    (fileState size body index).mem (pageOff k + o) = fileBody size body k o := by
  rw [fileState]
  simp only
  rw [Image.mem_page _ (by omega), if_pos ho]
  rfl

theorem fileState_logTail :
    AtfsInode.logTail.get (fileState size body index).mem fileInode = fileLog := by
  have hlt : fileLog < 256 ^ 8 := by
    rw [fileLog, pageOff_eq]
    norm_num
  refine (load_eq_of_bytes fun j hj => ?_).trans (Nat.mod_eq_of_lt hlt)
  simp only [AtfsInode.logTail_off, AtfsInode.logTail_size] at hj ⊢
  rw [fileInode, Nat.add_assoc, fileState_body (by omega), fileBody, if_pos rfl, if_neg (by omega),
    if_neg (by omega), if_pos (by omega), Nat.add_sub_cancel_left, wordByte]

theorem fileState_iSize (hsize : size < 2 ^ 64) :
    AtfsInode.iSize.get (fileState size body index).mem fileInode = size := by
  refine (load_eq_of_bytes fun j hj => ?_).trans (Nat.mod_eq_of_lt hsize)
  simp only [AtfsInode.iSize_off, AtfsInode.iSize_size] at hj ⊢
  rw [fileInode, Nat.add_assoc, fileState_body (by omega), fileBody, if_pos rfl, if_pos (by omega),
    Nat.add_sub_cancel_left, wordByte]

theorem fileState_fileOff :
    AtfsInode.fileOff.get (fileState size body index).mem fileInode = 0 := by
  refine (load_eq_of_bytes (v := 0) fun j hj => ?_).trans rfl
  simp only [AtfsInode.fileOff_off, AtfsInode.fileOff_size] at hj ⊢
  rw [fileInode, Nat.add_assoc, fileState_body (by omega), fileBody, if_pos rfl, if_neg (by omega),
    if_neg (by omega), if_neg (by omega)]
  simp

theorem fileFrontier_holds :
    fileFrontier.Holds pageAllocator (fileState size body index).mem where
  rep := ⟨_, fileState_wellFormed.chains, rfl⟩
  isPage := isPage_pageOff (by omega)
  notFree := pageOff_not_free (by omega)
  le_tail := le_rfl
  tail_le := Nat.le_add_right _ _

/-- The local lists of the file system hold 64 pages each. -/
theorem fileState_stocked :
    Stocked pageAllocator (fileState size body index).mem fileFrontier.free 64 :=
  ⟨fileFrontier_holds.rep, freeImage_roomy (by decide) (by decide) (by decide)⟩

theorem fileState_alloc_ok {n : Nat} (hn : 1 ≤ n) (hn' : n ≤ 64) :
    ∃ r, pageAllocator.allocFreePages (fileState size body index) n = .ok r := by
  have hstock : Stocked pageAllocator (fileState size body index).mem fileFrontier.free
      (64 - n + n) := fileState_stocked.mono (by omega)
  obtain ⟨node, s', -, halloc, -⟩ := hstock.alloc pageAllocator_follows hn hn'
  exact ⟨_, halloc⟩

end File

end Atfs
