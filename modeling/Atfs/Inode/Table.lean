import Atfs.Inode.Basic

/-!
# Allocating inodes (allocator.c)

Every CPU has a table of free inodes, a list linked through the `next` word of the inodes. An
empty table is refilled with the inodes of a fresh page. `free_atfs_inode` links its inode in
behind the head of a table and leaves the count alone, as `free_pages` does; an empty table has no
head to link it to.
-/

namespace Atfs

open ByteMemory LinkedChain

def inodeTableStart : Nat := 8
def sizeofAllocatorList : Nat := 64
def atfsInodePerAlloc : Nat := 1

namespace AllocatorList

@[simps] def head : Field 64 := ⟨0, 8, by decide⟩
@[simps] def count : Field 64 := ⟨8, 8, by decide⟩

end AllocatorList

namespace AtfsInode

@[simps] def next : Field 216 := ⟨80, 8, by decide⟩
@[simps] def inPage : Field 216 := ⟨88, 8, by decide⟩

end AtfsInode

def getAtfsInodeTableAddr (num : Nat) : Nat := inodeTableStart * pageSize +
    sizeofAllocatorList * num

/-- `node->next`, also of the inode at `OFFSET_NULL`: its address wraps around. -/
def inodeNext (m : Memory) (node : Nat) : Nat :=
  load m (addU64 node AtfsInode.next.off) AtfsInode.next.size

def setInodeNext (m : Memory) (node v : Nat) : Memory :=
  store m (addU64 node AtfsInode.next.off) AtfsInode.next.size v

/-- The first `j` rounds of the loop over the objects of a page: the state and `inode_prev`. -/
def fillInodes (A : PageAllocator) (node : Nat) : Nat → State → Except Fault (State × Option Nat)
  | 0, s => .ok (s, none)
  | j + 1, s => do
    let (s, inodePrev) ← fillInodes A node j s
    let inodeNode := addU64 (ListNode.offset.get s.mem node) (j * sizeofAtfsInode)
    let s ← initAtfsInode A s inodeNode
    let m := AtfsInode.inPage.set s.mem inodeNode (ListNode.offset.get s.mem node)
    let m := AtfsInode.next.set m inodeNode (inodePrev.getD offsetNull)
    .ok ({ s with mem := m }, some inodeNode)

def fillAtfsInodeList (A : PageAllocator) (s : State) (allocList : Nat) : Except Fault State := do
  let (node, s) ← A.allocFreePages s atfsInodePerAlloc
  let objNum := pageSize / sizeofAtfsInode
  -- `ATFS_INODE_PER_ALLOC` is 1, so the loop over the pages has one round
  let (s, inodeNode) ← fillInodes A node objNum s
  let m := if ListNode.nextOffset.get s.mem node ≠ offsetNull then
    ListNode.nextOffset.set s.mem node offsetNull else s.mem
  let m := AllocatorList.head.set m allocList (inodeNode.getD 0)
  let m := AllocatorList.count.set m allocList (atfsInodePerAlloc * objNum)
  .ok { s with mem := m }

/-- The head of a table is handed out. -/
def popAtfsInode (s : State) (allocList : Nat) : Nat × State :=
  let nodeOffset := AllocatorList.head.get s.mem allocList
  let m := AllocatorList.head.set s.mem allocList (inodeNext s.mem nodeOffset)
  let m := setInodeNext m nodeOffset offsetNull
  let m := AllocatorList.count.set m allocList (subU64 (AllocatorList.count.get m allocList) 1)
  (nodeOffset, { s with mem := m })

def allocAtfsInode (A : PageAllocator) (s : State) : Except Fault (Nat × State) := do
  let (cpuid, currentCpu) := getCpuid s.currentCpu
  let s := { s with currentCpu }
  let allocList := getAtfsInodeTableAddr cpuid
  let s ← if AllocatorList.count.get s.mem allocList = 0 then fillAtfsInodeList A s allocList
    else .ok s
  .ok (popAtfsInode s allocList)

def freeAtfsInode (s : State) (node : Nat) : State :=
  let (cpuid, currentCpu) := getCpuid s.currentCpu
  let allocList := getAtfsInodeTableAddr cpuid
  let head := AllocatorList.head.get s.mem allocList
  let next := inodeNext s.mem head
  let m := setInodeNext s.mem head node
  { s with mem := setInodeNext m node next, currentCpu }

/-! ## The tables -/

/-- The bytes of the inode tables. -/
def tableBytes : Set Nat := Set.Ico 32768 36864

/-- The page allocator has nothing to do with the inode tables. -/
structure KeepsTables (A : PageAllocator) : Prop where
  alloc : ∀ {m F cpu n node m' cpu'}, A.Rep m F → 1 ≤ n → A.alloc m cpu n = some (node, m', cpu') →
    Set.EqOn m' m tableBytes
  rep : ∀ {m m' F}, A.Rep m F → Set.EqOn m' m (metadata \ tableBytes ∪ bytesOf F) → A.Rep m' F

section Fields

variable {m m' : Memory} {i j x y v p : Nat} {F : Set Nat}

theorem getAtfsInodeTableAddr_eq (i : Nat) : getAtfsInodeTableAddr i = 32768 + 64 * i := rfl

theorem InodeIn.bounds (h : InodeIn x p) : 114688 ≤ x ∧ x + 216 ≤ 2 ^ 34 := by
  obtain ⟨hp, hle, hle'⟩ := h
  have := hp.bounds
  rw [show sizeofAtfsInode = 216 from rfl] at hle'
  omega

theorem inodeNext_eq (h : x + 80 < 2 ^ 64) (m : Memory) :
    inodeNext m x = AtfsInode.next.get m x := by
  rw [inodeNext, AtfsInode.next_off, addU64_of_lt h]
  rfl

theorem setInodeNext_eq (h : x + 80 < 2 ^ 64) (m : Memory) (v : Nat) :
    setInodeNext m x v = AtfsInode.next.set m x v := by
  rw [setInodeNext, AtfsInode.next_off, addU64_of_lt h]
  rfl

/-- The link of an inode is decided by its bytes. -/
theorem inodeNext_congr (h : x + 80 < 2 ^ 64) (heq : Set.EqOn m' m (inodeBytes x)) :
    inodeNext m' x = inodeNext m x := by
  rw [inodeNext_eq h, inodeNext_eq h]
  refine Field.get_congr fun a ha => heq ?_
  simp only [Field.bytes, AtfsInode.next_off, AtfsInode.next_size, Set.mem_Ico] at ha
  rw [inodeBytes, Set.mem_Ico]
  omega

theorem header_subset (hi : i < gCpuNums) (f : Field 64) :
    f.bytes (getAtfsInodeTableAddr i) ⊆ tableBytes := by
  intro a ha
  have := f.fits
  rw [Field.bytes, Set.mem_Ico, getAtfsInodeTableAddr_eq] at ha
  rw [gCpuNums] at hi
  rw [tableBytes, Set.mem_Ico]
  omega

theorem table_get_congr (hi : i < gCpuNums) (heq : Set.EqOn m' m tableBytes) (f : Field 64) :
    f.get m' (getAtfsInodeTableAddr i) = f.get m (getAtfsInodeTableAddr i) :=
  Field.get_congr (heq.mono (header_subset hi f))

theorem table_get_set (h : i ≠ j) (f g : Field 64) (m : Memory) (v : Nat) :
    f.get (g.set m (getAtfsInodeTableAddr j) v) (getAtfsInodeTableAddr i) =
      f.get m (getAtfsInodeTableAddr i) := by
  refine Field.get_set_of_apart f g m ?_
  rw [getAtfsInodeTableAddr_eq, getAtfsInodeTableAddr_eq]
  omega

/-- A header does not touch anything but the tables. -/
theorem changesOnly_table (hi : i < gCpuNums) (f : Field 64) (m : Memory) (v : Nat) :
    ChangesOnly tableBytes m (f.set m (getAtfsInodeTableAddr i) v) :=
  (f.changesOnly_set m _ v).mono (header_subset hi f)

theorem InodeIn.disjoint_tableBytes (h : InodeIn x p) : Disjoint (inodeBytes x) tableBytes := by
  have := h.bounds
  refine Set.disjoint_left.2 fun a ha hc => ?_
  rw [inodeBytes, Set.mem_Ico] at ha
  rw [tableBytes, Set.mem_Ico] at hc
  omega

end Fields

/-! ## New inodes -/

/-- The inode describes a file of no bytes that stands at its start and has an empty log. -/
structure NewInode (m : Memory) (x : Nat) : Prop where
  iSize : AtfsInode.iSize.get m x = 0
  fileOff : AtfsInode.fileOff.get m x = 0
  logTail : AtfsInode.logTail.get m x = AtfsInode.logHead.get m x

/-- The inodes are new, and the log of each is a page of its own between `F` and `F'`. -/
structure Filled (m : Memory) (F F' : Set Nat) (xs : List Nat) : Prop where
  new : ∀ x ∈ xs, NewInode m x
  log : ∀ x ∈ xs, AtfsInode.logHead.get m x ∈ F ∧ AtfsInode.logHead.get m x ∉ F'
  inj : ∀ x ∈ xs, ∀ y ∈ xs, x ≠ y → AtfsInode.logHead.get m x ≠ AtfsInode.logHead.get m y

section New

variable {m m' : Memory} {F F' F'' : Set Nat} {xs : List Nat} {x : Nat}

/-- The words of the file stand in front of the link of the inode. -/
theorem fileWord_congr (heq : Set.EqOn m' m (Set.Ico x (x + 80))) (g : Field 216)
    (hg : g.off + g.size ≤ 80) : g.get m' x = g.get m x := by
  refine Field.get_congr fun a ha => heq ?_
  rw [Field.bytes, Set.mem_Ico] at ha
  rw [Set.mem_Ico]
  omega

theorem logHead_congr (heq : Set.EqOn m' m (Set.Ico x (x + 80))) :
    AtfsInode.logHead.get m' x = AtfsInode.logHead.get m x := fileWord_congr heq _ (by decide)

theorem NewInode.congr (h : NewInode m x) (heq : Set.EqOn m' m (Set.Ico x (x + 80))) :
    NewInode m' x where
  iSize := (fileWord_congr heq _ (by decide)).trans h.iSize
  fileOff := (fileWord_congr heq _ (by decide)).trans h.fileOff
  logTail := by
    rw [fileWord_congr heq _ (by decide), logHead_congr heq]
    exact h.logTail

theorem Filled.congr (h : Filled m F F' xs) (heq : ∀ x ∈ xs, Set.EqOn m' m (Set.Ico x (x + 80))) :
    Filled m' F F' xs where
  new := fun x hx => (h.new x hx).congr (heq x hx)
  log := fun x hx => by
    rw [logHead_congr (heq x hx)]
    exact h.log x hx
  inj := fun x hx y hy => by
    rw [logHead_congr (heq x hx), logHead_congr (heq y hy)]
    exact h.inj x hx y hy

/-- One more inode, whose log page was still free. -/
theorem Filled.cons (h : Filled m F F' xs) (hnew : NewInode m x) (hsub : F' ⊆ F) (hsub' : F'' ⊆ F')
    (hlog : AtfsInode.logHead.get m x ∈ F') (hlog' : AtfsInode.logHead.get m x ∉ F'') :
    Filled m F F'' (x :: xs) := by
  refine ⟨fun y hy => ?_, fun y hy => ?_, fun y hy z hz hyz heq => ?_⟩
  · rcases List.mem_cons.1 hy with rfl | hy
    · exact hnew
    · exact h.new y hy
  · rcases List.mem_cons.1 hy with rfl | hy
    · exact ⟨hsub hlog, hlog'⟩
    · exact ⟨(h.log y hy).1, fun hc => (h.log y hy).2 (hsub' hc)⟩
  · rcases List.mem_cons.1 hy with rfl | hy' <;> rcases List.mem_cons.1 hz with rfl | hz'
    · exact hyz rfl
    · exact (h.log z hz').2 (heq ▸ hlog)
    · exact (h.log y hy').2 (heq.symm ▸ hlog)
    · exact h.inj y hy' z hz' hyz heq

theorem Filled.nil (m : Memory) (F F' : Set Nat) : Filled m F F' [] :=
  ⟨fun _ hx => absurd hx List.not_mem_nil, fun _ hx => absurd hx List.not_mem_nil,
    fun _ hx => absurd hx List.not_mem_nil⟩

end New

/-! ## Refilling -/

/-- The first `j` inodes of page `p`, the last one first. -/
def pageInodes (p j : Nat) : List Nat := (List.range j).reverse.map fun k => p + 216 * k

section Fill

variable {A : PageAllocator} {F : Set Nat} {s s' : State} {p x : Nat}

theorem pageInodes_succ (p j : Nat) : pageInodes p (j + 1) = (p + 216 * j) :: pageInodes p j := by
  rw [pageInodes, List.range_succ, List.reverse_append]
  rfl

theorem mem_pageInodes {j : Nat} : x ∈ pageInodes p j ↔ ∃ k < j, x = p + 216 * k := by
  simp only [pageInodes, List.mem_map, List.mem_reverse, List.mem_range, eq_comm]

/-- What `init_atfs_inode` writes, the tables not among it. -/
theorem initAtfsInode_frame (hA : KeepsTables A) (hF : A.Rep s.mem F) (hin : InodeIn x p)
    (hpF : p ∉ F) (h : initAtfsInode A s x = .ok s') :
    ∃ f, Initialised A F s s' x f ∧
      ChangesOnly (allocatorBytes F \ tableBytes ∪ inodeBytes x) s.mem s'.mem := by
  obtain ⟨f, hinit⟩ := initAtfsInode_spec hF hin hpF h
  refine ⟨f, hinit, fun a ha => ?_⟩
  by_cases hx : a ∈ inodeBytes x
  · exact absurd (.inr hx) ha
  by_cases ht : a ∈ tableBytes
  · rw [initAtfsInode] at h
    obtain ⟨⟨node, s₁⟩, halloc, h⟩ := bind_eq_ok.1 h
    generalize hm : AtfsInode.fd.set (AtfsInode.iSize.set (AtfsInode.deleted.set
      (AtfsInode.valid.set s.mem x 0) x 0) x 0) x (2 ^ 32 - 1) = m at halloc
    have hwords : ChangesOnly (inodeBytes x) s.mem m := hm ▸
      (((AtfsInode.changesOnly _ _ _ _).trans (AtfsInode.changesOnly _ _ _ _)).trans
        (AtfsInode.changesOnly _ _ _ _)).trans (AtfsInode.changesOnly _ _ _ _)
    have hkeep : Set.EqOn s₁.mem m tableBytes := by
      rw [PageAllocator.allocFreePages] at halloc
      cases ha : A.alloc m s.currentCpu writeLogPerAlloc with
      | none => simp [ha] at halloc
      | some r =>
        rw [ha] at halloc
        obtain rfl : _ = s₁ := (Prod.mk.inj (Except.ok.inj halloc)).2
        exact hA.alloc (hin.rep_congr hF hpF hwords) (by decide) ha
    obtain rfl := Except.ok.inj h
    exact (changesOnly_setLog s₁.mem x _ a hx).trans ((hkeep ht).trans (hwords a hx))
  · exact hinit.frame a fun hc => ha (hc.elim (fun hc => .inl ⟨hc, ht⟩) .inr)

/-- The bytes a refill may write besides the tables: what the allocator holds and the page. -/
def fillBytes (F : Set Nat) (p : Nat) : Set Nat := allocatorBytes F \ tableBytes ∪ bodyBytes p

theorem InodeIn.subset_bodyBytes (h : InodeIn x p) : inodeBytes x ⊆ bodyBytes p := by
  obtain ⟨-, hle, hle'⟩ := h
  rw [show sizeofAtfsInode = 216 from rfl] at hle'
  intro a ha
  rw [inodeBytes, Set.mem_Ico] at ha
  rw [mem_bodyBytes]
  omega

theorem fillBytes_mono {F' : Set Nat} (h : F' ⊆ F) :
    allocatorBytes F' \ tableBytes ⊆ allocatorBytes F \ tableBytes :=
  Set.sdiff_subset_sdiff_left (allocatorBytes_mono h)

/-- The page says where it lies as before. -/
theorem offset_of_fillBytes {m m' : Memory} (hF : ∀ q ∈ F, IsPage q) (hp : IsPage p) (hpF : p ∉ F)
    (hm : ChangesOnly (fillBytes F p) m m') :
    ListNode.offset.get m' (p + 4096) = ListNode.offset.get m (p + 4096) := by
  refine Field.get_congr fun a ha => hm a ?_
  simp only [Field.bytes, ListNode.offset_off, ListNode.offset_size, Set.mem_Ico] at ha
  rintro (hc | hc)
  · exact not_mem_allocatorBytes hF hp hpF (by rw [mem_pageBytes]; omega) hc.1
  · rw [mem_bodyBytes] at hc
    omega

/-- An inode of a page in use is not touched by a round that fills another one. -/
theorem keeps_inode {F : Set Nat} {m m' : Memory} {y q : Nat} (hFpage : ∀ r ∈ F, IsPage r)
    (hy : InodeIn y q) (hqF : q ∉ F) (hxy : x + 216 ≤ y ∨ y + 216 ≤ x)
    (h : ChangesOnly (allocatorBytes F \ tableBytes ∪ inodeBytes x) m m') :
    Set.EqOn m' m (inodeBytes y) := by
  intro a ha
  refine h a ?_
  rintro (hc | hc)
  · have := hy.subset_bodyBytes ha
    rw [mem_bodyBytes] at this
    exact not_mem_allocatorBytes hFpage hy.1 hqF (by rw [mem_pageBytes]; omega) hc.1
  · rw [inodeBytes, Set.mem_Ico] at ha hc
    omega

/-- The rounds of a refill: the inodes of the page are linked to one another, the last one first. -/
theorem fillInodes_spec (hA : KeepsTables A) (hp : IsPage p) (hpF : p ∉ F) {j : Nat} (hj : j ≤ 18)
    {r : Option Nat} (hF : A.Rep s.mem F) (hoff : ListNode.offset.get s.mem (p + 4096) = p)
    (h : fillInodes A (p + 4096) j s = .ok (s', r)) :
    ∃ F', A.Rep s'.mem F' ∧ F' ⊆ F ∧ ChangesOnly (fillBytes F p) s.mem s'.mem ∧
      Segment (inodeNext s'.mem) (r.getD offsetNull) (pageInodes p j) offsetNull ∧
      (1 ≤ j → r = some (p + 216 * (j - 1))) ∧
      Filled s'.mem F F' (pageInodes p j) ∧ s'.index = s.index := by
  induction j generalizing s' r with
  | zero =>
    rw [fillInodes] at h
    obtain ⟨rfl, rfl⟩ : s = s' ∧ none = r := by simpa using h
    exact ⟨F, hF, subset_rfl, ChangesOnly.refl _ _, rfl, fun h => absurd h (by omega),
      Filled.nil _ _ _, rfl⟩
  | succ j ih =>
    rw [fillInodes] at h
    obtain ⟨⟨s₁, prev⟩, hrounds, h⟩ := bind_eq_ok.1 h
    obtain ⟨F₁, hF₁, hsub, hkeep, hchain, -, hfilled, hindex⟩ := ih (by omega) hrounds
    have hbounds := hp.bounds
    have hoff₁ : ListNode.offset.get s₁.mem (p + 4096) = p :=
      (offset_of_fillBytes (A.rep_page hF) hp hpF hkeep).trans hoff
    have hnode : addU64 (ListNode.offset.get s₁.mem (p + 4096)) (j * sizeofAtfsInode) =
        p + 216 * j := by
      rw [hoff₁, show sizeofAtfsInode = 216 from rfl, addU64_of_lt (by omega)]
      omega
    simp only [hnode] at h
    generalize hx : p + 216 * j = x at h
    have hin : InodeIn x p := ⟨hp, by omega, by rw [show sizeofAtfsInode = 216 from rfl]; omega⟩
    have hpF₁ : p ∉ F₁ := fun hc => hpF (hsub hc)
    obtain ⟨s₂, hinit, h⟩ := bind_eq_ok.1 h
    obtain ⟨f, hnew, hkeep₂⟩ := initAtfsInode_frame hA hF₁ hin hpF₁ hinit
    have hF₂ := hnew.holds.rep
    have hsub₂ := hnew.sub
    obtain ⟨rfl, rfl⟩ := Prod.mk.inj (Except.ok.inj h)
    generalize ListNode.offset.get s₂.mem (p + 4096) = page
    have hwords : ChangesOnly (inodeBytes x) s₂.mem
        (AtfsInode.next.set (AtfsInode.inPage.set s₂.mem x page) x (prev.getD offsetNull)) :=
      (AtfsInode.changesOnly _ _ _ _).trans (AtfsInode.changesOnly _ _ _ _)
    have hround : ChangesOnly (allocatorBytes F₁ \ tableBytes ∪ inodeBytes x) s₁.mem
        (AtfsInode.next.set (AtfsInode.inPage.set s₂.mem x page) x (prev.getD offsetNull)) :=
      hkeep₂.trans (hwords.mono Set.subset_union_right)
    have hold {y : Nat} (hy : y ∈ pageInodes p j) : Set.EqOn
        (AtfsInode.next.set (AtfsInode.inPage.set s₂.mem x page) x (prev.getD offsetNull)) s₁.mem
        (inodeBytes y) := by
      obtain ⟨k, hk, rfl⟩ := mem_pageInodes.1 hy
      refine keeps_inode (A.rep_page hF₁) (q := p) ⟨hp, by omega, ?_⟩ hpF₁ (by omega) hround
      rw [show sizeofAtfsInode = 216 from rfl]
      omega
    refine ⟨f.free, hin.rep_congr hF₂ (fun hc => hpF₁ (hsub₂ hc)) hwords,
      hsub₂.trans hsub, ?_, ?_, ?_, ?_, hnew.index.trans hindex⟩
    · refine hkeep.trans (hround.mono ?_)
      exact Set.union_subset_union (fillBytes_mono hsub) hin.subset_bodyBytes
    · rw [pageInodes_succ, hx]
      refine ⟨rfl, ?_⟩
      have hprev : prev.getD offsetNull < 2 ^ 64 := by
        cases j with
        | zero => rw [hchain]; decide
        | succ j =>
          rw [pageInodes_succ] at hchain
          rw [hchain.head_eq]
          omega
      rw [inodeNext_eq (by omega), Field.get_set_self_of_lt _ _ hprev]
      refine hchain.congr fun y hy => (inodeNext_congr ?_ (hold hy)).symm
      obtain ⟨k, hk, rfl⟩ := mem_pageInodes.1 hy
      omega
    · intro _
      rw [Nat.add_sub_cancel, hx]
    · rw [pageInodes_succ, hx]
      -- the words of the file are those `init_atfs_inode` has set
      have hwords' : Set.EqOn (AtfsInode.next.set (AtfsInode.inPage.set s₂.mem x page) x
          (prev.getD offsetNull)) s₂.mem (Set.Ico x (x + 80)) := fun a ha => by
        rw [Set.mem_Ico] at ha
        rw [Field.set_apply_of_outside _ _ (.inl (by simp; omega)),
          Field.set_apply_of_outside _ _ (.inl (by simp; omega))]
      have hhead := (logHead_congr hwords').trans hnew.logHead
      refine Filled.cons (hfilled.congr fun y hy a ha => hold hy ?_) ?_ hsub hsub₂ ?_ ?_
      · rw [Set.mem_Ico] at ha
        rw [inodeBytes, Set.mem_Ico]
        omega
      · exact NewInode.congr ⟨hnew.iSize, hnew.fileOff, hnew.logTail.trans hnew.logHead.symm⟩
          hwords'
      · rw [hhead]
        exact hnew.fresh
      · rw [hhead]
        exact hnew.holds.notFree

end Fill

/-- In memory `m` table `i` holds the inodes `l`. -/
structure TableHolds (m : Memory) (i : Nat) (l : List Nat) : Prop where
  chain : Segment (inodeNext m) (AllocatorList.head.get m (getAtfsInodeTableAddr i)) l offsetNull
  count : AllocatorList.count.get m (getAtfsInodeTableAddr i) = l.length

/-! ## Inodes that lie apart -/

/-- The inodes lie apart, in pages outside `F`. -/
structure InodesApart (F : Set Nat) (xs : List Nat) : Prop where
  nodup : xs.Nodup
  placed : ∀ x ∈ xs, ∃ p, InodeIn x p ∧ p ∉ F
  apart : ∀ x ∈ xs, ∀ y ∈ xs, x ≠ y → x + 216 ≤ y ∨ y + 216 ≤ x

namespace InodesApart

variable {F F' : Set Nat} {xs ys : List Nat} {x p : Nat}

/-- Some of the inodes, outside fewer pages. -/
theorem mono (h : InodesApart F xs) (hF : F' ⊆ F) (hsub : ys ⊆ xs) (hnodup : ys.Nodup) :
    InodesApart F' ys where
  nodup := hnodup
  placed := fun x hx => by
    obtain ⟨p, hp, hpF⟩ := h.placed x (hsub hx)
    exact ⟨p, hp, fun hc => hpF (hF hc)⟩
  apart := fun x hx y hy => h.apart x (hsub hx) y (hsub hy)

theorem perm (h : InodesApart F xs) (hperm : ys.Perm xs) : InodesApart F ys :=
  h.mono subset_rfl hperm.subset (hperm.nodup_iff.2 h.nodup)

theorem bounds (h : InodesApart F xs) (hx : x ∈ xs) : 114688 ≤ x ∧ x + 216 ≤ 2 ^ 34 := by
  obtain ⟨p, hp, -⟩ := h.placed x hx
  exact hp.bounds

theorem offsetNull_notMem (h : InodesApart F xs) : offsetNull ∉ xs := by
  intro hc
  have := h.bounds hc
  rw [offsetNull_eq] at this
  omega

theorem pageInodes_in (hp : IsPage p) (hx : x ∈ pageInodes p 18) : InodeIn x p := by
  obtain ⟨k, hk, rfl⟩ := mem_pageInodes.1 hx
  exact ⟨hp, by omega, by rw [show sizeofAtfsInode = 216 from rfl]; omega⟩

/-- The inodes of a page that was free lie apart from all others. -/
theorem fill (h : InodesApart F xs) (hp : IsPage p) (hpF : p ∈ F) (hsub : F' ⊆ F) (hpF' : p ∉ F') :
    InodesApart F' (pageInodes p 18 ++ xs) := by
  have hnew {x : Nat} (hx : x ∈ pageInodes p 18) := pageInodes_in hp hx
  have hold {x y : Nat} (hx : x ∈ pageInodes p 18) (hy : y ∈ xs) : x + 216 ≤ y ∨ y + 216 ≤ x := by
    obtain ⟨q, ⟨hq, hle, hle'⟩, hqF⟩ := h.placed y hy
    obtain ⟨-, hle₁, hle₁'⟩ := hnew hx
    rw [show sizeofAtfsInode = 216 from rfl] at hle' hle₁'
    have := hp.apart hq (by rintro rfl; exact hqF hpF)
    omega
  have hsame {x y : Nat} (hx : x ∈ pageInodes p 18) (hy : y ∈ pageInodes p 18) (hxy : x ≠ y) :
      x + 216 ≤ y ∨ y + 216 ≤ x := by
    obtain ⟨k, hk, rfl⟩ := mem_pageInodes.1 hx
    obtain ⟨k', hk', rfl⟩ := mem_pageInodes.1 hy
    omega
  refine ⟨?_, fun x hx => ?_, fun x hx y hy hxy => ?_⟩
  · refine List.Nodup.append ?_ h.nodup fun x hx hx' => ?_
    · refine (List.nodup_reverse.2 List.nodup_range).map fun a b hab => ?_
      have hab : p + 216 * a = p + 216 * b := hab
      omega
    · have := hold hx hx'
      omega
  · rcases List.mem_append.1 hx with hx | hx
    · exact ⟨p, hnew hx, hpF'⟩
    · obtain ⟨q, hq, hqF⟩ := h.placed x hx
      exact ⟨q, hq, fun hc => hqF (hsub hc)⟩
  · rcases List.mem_append.1 hx with hx | hx <;> rcases List.mem_append.1 hy with hy | hy
    · exact hsame hx hy hxy
    · exact hold hx hy
    · exact (hold hy hx).symm
    · exact h.apart x hx y hy hxy

end InodesApart

/-! ## All inodes on the tables -/

/-- The inodes of all tables. -/
def allInodes (tables : Nat → List Nat) : List Nat := (List.range gCpuNums).flatMap tables

section Tables

variable {tables : Nat → List Nat} {i x : Nat} {l : List Nat}

theorem mem_allInodes : x ∈ allInodes tables ↔ ∃ i < gCpuNums, x ∈ tables i := by
  simp only [allInodes, List.mem_flatMap, List.mem_range]

variable (tables) in
/-- Changing one table exchanges its inodes. -/
theorem allInodes_update (hi : i < gCpuNums) (l : List Nat) :
    (allInodes (Function.update tables i l)).Perm
      (l ++ ((List.range gCpuNums).erase i).flatMap tables) := by
  have hmem : i ∈ List.range gCpuNums := List.mem_range.2 hi
  rw [allInodes]
  refine ((List.perm_cons_erase hmem).flatMap_right _).trans ?_
  rw [List.flatMap_cons, Function.update_self]
  have hrest : ((List.range gCpuNums).erase i).flatMap (Function.update tables i l) =
      ((List.range gCpuNums).erase i).flatMap tables := by
    refine List.flatMap_congr fun j hj => Function.update_of_ne ?_ _ _
    rintro rfl
    exact (List.nodup_range.mem_erase_iff.1 hj).1 rfl
  rw [hrest]

variable (tables) in
theorem allInodes_perm (hi : i < gCpuNums) :
    (allInodes tables).Perm (tables i ++ ((List.range gCpuNums).erase i).flatMap tables) := by
  have h := allInodes_update tables hi (tables i)
  rwa [Function.update_eq_self] at h

theorem allInodes_disjoint {j : Nat} (hall : (allInodes tables).Nodup) (hi : i < gCpuNums)
    (hj : j < gCpuNums) (hij : i ≠ j) : (tables i).Disjoint (tables j) := by
  intro x hx hx'
  have hsplit := List.nodup_append'.1 ((allInodes_perm tables hi).nodup_iff.1 hall)
  refine hsplit.2.2 hx (List.mem_flatMap.2 ⟨j, ?_, hx'⟩)
  exact List.nodup_range.mem_erase_iff.2 ⟨Ne.symm hij, List.mem_range.2 hj⟩

/-- Taking the first inode of a table. -/
theorem allInodes_pop (hi : i < gCpuNums) (h : tables i = x :: l) :
    (x :: allInodes (Function.update tables i l)).Perm (allInodes tables) := by
  refine ((allInodes_update tables hi l).cons x).trans ?_
  have := allInodes_perm tables hi
  rw [h] at this
  exact this.symm

/-- Filling an empty table. -/
theorem allInodes_fill (hi : i < gCpuNums) (h : tables i = []) :
    (allInodes (Function.update tables i l)).Perm (l ++ allInodes tables) := by
  refine (allInodes_update tables hi l).trans (List.Perm.append_left l ?_)
  have := allInodes_perm tables hi
  rw [h] at this
  exact this.symm

end Tables

/-! ## What the calls do -/

section Calls

variable {A : PageAllocator} {F : Set Nat} {m : Memory} {i j x y p q v : Nat} {rest : List Nat}

/-- The tables are none of the pages. -/
theorem KeepsTables.rep_tables (hA : KeepsTables A) {m m' : Memory} (hF : A.Rep m F)
    (h : ChangesOnly tableBytes m m') : A.Rep m' F := by
  refine hA.rep hF fun a ha => h a fun ht => ?_
  rcases ha with ha | ⟨q, hq, ha⟩
  · exact ha.2 ht
  · have := (A.rep_page hF q hq).bounds
    rw [mem_pageBytes] at ha
    rw [tableBytes, Set.mem_Ico] at ht
    omega

/-- Neither are the inodes in pages in use. -/
theorem KeepsTables.rep_inode (hA : KeepsTables A) {m m' : Memory} (hF : A.Rep m F)
    (hin : InodeIn x p) (hpF : p ∉ F) (h : ChangesOnly (tableBytes ∪ inodeBytes x) m m') :
    A.Rep m' F := by
  refine hA.rep hF fun a ha => h a ?_
  rintro (hc | hc)
  · rcases ha with ha | ⟨q, hq, ha⟩
    · exact ha.2 hc
    · have := (A.rep_page hF q hq).bounds
      rw [mem_pageBytes] at ha
      rw [tableBytes, Set.mem_Ico] at hc
      omega
  · exact Set.disjoint_left.1 (hin.apart (A.rep_page hF) hpF) hc (ha.imp_left And.left)

/-- An inode apart from the one written keeps its link. -/
theorem inodeNext_keep {m m' : Memory} {y q : Nat} (hy : InodeIn y q)
    (hxy : x + 216 ≤ y ∨ y + 216 ≤ x) (h : ChangesOnly (tableBytes ∪ inodeBytes x) m m') :
    inodeNext m' y = inodeNext m y := by
  have hb := hy.bounds
  refine inodeNext_congr (by omega) fun a ha => h a ?_
  rintro (hc | hc)
  · exact Set.disjoint_left.1 hy.disjoint_tableBytes ha hc
  · rw [inodeBytes, Set.mem_Ico] at ha hc
    omega

/-- What handing out the head of a table does to the memory. -/
theorem popAtfsInode_spec (hi : i < gCpuNums) (hin : InodeIn x p) {s : State}
    (hhead : AllocatorList.head.get s.mem (getAtfsInodeTableAddr i) = x)
    {n : Nat} (hcount : AllocatorList.count.get s.mem (getAtfsInodeTableAddr i) = n + 1) :
    ∃ t, popAtfsInode s (getAtfsInodeTableAddr i) = (x, t) ∧
      ChangesOnly (tableBytes ∪ inodeBytes x) s.mem t.mem ∧
      AllocatorList.head.get t.mem (getAtfsInodeTableAddr i) = inodeNext s.mem x ∧
      AllocatorList.count.get t.mem (getAtfsInodeTableAddr i) = n ∧
      ∀ j, j ≠ i → j < gCpuNums → ∀ f : Field 64,
        f.get t.mem (getAtfsInodeTableAddr j) = f.get s.mem (getAtfsInodeTableAddr j) := by
  have hb := hin.bounds
  have hlt := Field.get_lt AllocatorList.count s.mem (getAtfsInodeTableAddr i)
  rw [hcount, AllocatorList.count_size] at hlt
  have hnext : inodeNext s.mem x < 2 ^ 64 := by
    rw [inodeNext_eq (by omega)]
    exact Field.get_lt AtfsInode.next _ _
  have hinode (m : Memory) (v : Nat) : ChangesOnly (inodeBytes x) m (setInodeNext m x v) := by
    rw [setInodeNext_eq (by omega)]
    exact AtfsInode.changesOnly _ _ _ _
  have htable {j : Nat} (hj : j < gCpuNums) (f : Field 64) (m : Memory) (v : Nat) :
      f.get (setInodeNext m x v) (getAtfsInodeTableAddr j) = f.get m (getAtfsInodeTableAddr j) :=
    table_get_congr hj ((hinode m v).eqOn hin.disjoint_tableBytes) f
  obtain ⟨m, hm⟩ : ∃ m, setInodeNext (AllocatorList.head.set s.mem (getAtfsInodeTableAddr i)
    (inodeNext s.mem x)) x offsetNull = m := ⟨_, rfl⟩
  have hm' : AllocatorList.count.get m (getAtfsInodeTableAddr i) = n + 1 := by
    rw [← hm, htable hi, Field.get_set_of_disjoint _ _ _ (by simp), hcount]
  refine ⟨{ s with mem := AllocatorList.count.set m (getAtfsInodeTableAddr i) n }, ?_,
    ?_, ?_, ?_, ?_⟩
  · rw [popAtfsInode]
    simp only [hhead, hm, hm', subU64_of_le (show 1 ≤ n + 1 by omega) hlt, Nat.add_sub_cancel]
  · refine ChangesOnly.trans ?_ ((changesOnly_table hi _ _ _).mono Set.subset_union_left)
    rw [← hm]
    exact ((changesOnly_table hi _ _ _).mono Set.subset_union_left).trans
      ((hinode _ _).mono Set.subset_union_right)
  · rw [Field.get_set_of_disjoint _ _ _ (by simp), ← hm, htable hi]
    exact Field.get_set_self_of_lt _ _ hnext
  · exact Field.get_set_self_of_lt _ _ (by rw [AllocatorList.count_size]; omega)
  · intro j hj hj' f
    rw [table_get_set hj, ← hm, htable hj', table_get_set hj]

/-- What a refill does: the inodes of a fresh page become the table. -/
theorem fillAtfsInodeList_spec (hA : KeepsTables A) (hi : i < gCpuNums) {s t : State}
    (hF : A.Rep s.mem F) (h : fillAtfsInodeList A s (getAtfsInodeTableAddr i) = .ok t) :
    ∃ F' p, A.Rep t.mem F' ∧ F' ⊆ F ∧ p ∈ F ∧ p ∉ F' ∧ TableHolds t.mem i (pageInodes p 18) ∧
      (∀ j, j ≠ i → j < gCpuNums → ∀ f : Field 64,
        f.get t.mem (getAtfsInodeTableAddr j) = f.get s.mem (getAtfsInodeTableAddr j)) ∧
      (∀ q, IsPage q → q ∉ F → Set.EqOn t.mem s.mem (pageBytes q)) ∧
      Filled t.mem (F \ {p}) F' (pageInodes p 18) ∧ t.index = s.index ∧
      ∃ u, A.allocFreePages s atfsInodePerAlloc = .ok (p + 4096, u) ∧
        ListNode.offset.get u.mem (p + 4096) = p := by
  rw [fillAtfsInodeList] at h
  obtain ⟨⟨node, s₁⟩, halloc, h⟩ := bind_eq_ok.1 h
  obtain ⟨⟨s₂, r⟩, hrounds, h⟩ := bind_eq_ok.1 h
  have htables : Set.EqOn s₁.mem s.mem tableBytes := by
    rw [PageAllocator.allocFreePages] at halloc
    cases ha : A.alloc s.mem s.currentCpu atfsInodePerAlloc with
    | none => simp [ha] at halloc
    | some r =>
      rw [ha] at halloc
      obtain rfl : _ = s₁ := (Prod.mk.inj (Except.ok.inj halloc)).2
      exact hA.alloc hF (by decide) ha
  obtain ⟨p, l, F₁, rfl, hlen, hall⟩ := PageAllocator.allocFreePages_spec hF (by decide) halloc
  obtain ⟨q, rfl⟩ : ∃ q, l = [q] := List.length_eq_one_iff.1 hlen
  obtain rfl : p = q := hall.chain.chain.head_eq
  have hp : IsPage p := hall.chain.page p (by simp)
  have hpF₁ : p ∉ F₁ := fun hc => (hall.rest p hc).2 (by simp)
  have hsub₁ : F₁ ⊆ F := fun q hq => (hall.rest q hq).1
  have hbounds := hp.bounds
  obtain ⟨F₂, hF₂, hsub₂, hkeep, hchain, hlast, hfilled, hindex⟩ :=
    fillInodes_spec hA hp hpF₁ (j := 18) le_rfl hall.rep (hall.chain.offset p (by simp)) hrounds
  obtain rfl := hlast (by omega)
  -- the page was handed out alone, so there is no next one
  have hlink : ListNode.nextOffset.get s₂.mem (p + 4096) = offsetNull := by
    have hnull : ListNode.nextOffset.get s₁.mem (p + 4096) = offsetNull := by
      rw [← hp.pageLink_eq]
      exact hall.chain.chain.2
    refine (Field.get_congr fun a ha => hkeep a ?_).trans hnull
    simp only [Field.bytes, ListNode.nextOffset_off, ListNode.nextOffset_size, Set.mem_Ico] at ha
    rintro (hc | hc)
    · exact not_mem_allocatorBytes (A.rep_page hall.rep) hp hpF₁ (by rw [mem_pageBytes]; omega) hc.1
    · rw [mem_bodyBytes] at hc
      omega
  obtain rfl := Except.ok.inj h
  simp only [hlink, ne_eq, not_true_eq_false, if_false, Option.getD_some]
  have hnum : atfsInodePerAlloc * (pageSize / sizeofAtfsInode) = 18 := by decide
  rw [hnum]
  have hset : ChangesOnly tableBytes s₂.mem (AllocatorList.count.set (AllocatorList.head.set s₂.mem
      (getAtfsInodeTableAddr i) (p + 216 * (18 - 1))) (getAtfsInodeTableAddr i) 18) :=
    (changesOnly_table hi _ _ _).trans (changesOnly_table hi _ _ _)
  -- the rounds keep the tables
  have hrounds' : Set.EqOn s₂.mem s₁.mem tableBytes := by
    refine fun a ha => hkeep a ?_
    rintro (hc | hc)
    · exact hc.2 ha
    · rw [mem_bodyBytes] at hc
      rw [tableBytes, Set.mem_Ico] at ha
      omega
  refine ⟨F₂, p, hA.rep_tables hF₂ hset, hsub₂.trans hsub₁, hall.fresh p (by simp),
    fun hc => hpF₁ (hsub₂ hc), ⟨?_, ?_⟩, fun j hj hj' f => ?_, fun q hq hqF a ha => ?_, ?_,
    hindex.trans hall.index, s₁, halloc, hall.chain.offset p (by simp)⟩
  · rw [Field.get_set_of_disjoint _ _ _ (by simp),
      Field.get_set_self_of_lt _ _ (by rw [AllocatorList.head_size]; omega)]
    refine hchain.congr fun y hy => (inodeNext_congr ?_ ?_).symm
    · obtain ⟨k, hk, rfl⟩ := mem_pageInodes.1 hy
      omega
    · obtain ⟨k, hk, rfl⟩ := mem_pageInodes.1 hy
      have hin : InodeIn (p + 216 * k) p :=
        ⟨hp, by omega, by rw [show sizeofAtfsInode = 216 from rfl]; omega⟩
      exact hset.eqOn hin.disjoint_tableBytes.symm
  · exact Field.get_set_self_of_lt _ _ (by decide)
  · rw [table_get_set hj, table_get_set hj, table_get_congr hj' hrounds',
      table_get_congr hj' htables]
  · have ht : a ∉ tableBytes := fun hc => by
      have := hq.bounds
      rw [mem_pageBytes] at ha
      rw [tableBytes, Set.mem_Ico] at hc
      omega
    have hqp : q ≠ p := by
      rintro rfl
      exact hqF (hall.fresh q (by simp))
    rw [hset a ht, hkeep a ?_, hall.keeps hF hq hqF ha]
    rintro (hc | hc)
    · exact not_mem_allocatorBytes (A.rep_page hall.rep) hq (fun hc => hqF (hsub₁ hc)) ha hc.1
    · have := hq.apart hp hqp
      rw [mem_bodyBytes] at hc
      rw [mem_pageBytes] at ha
      omega
  · have hfilled' : Filled (AllocatorList.count.set (AllocatorList.head.set s₂.mem
        (getAtfsInodeTableAddr i) (p + 216 * (18 - 1))) (getAtfsInodeTableAddr i) 18) _ _ _ :=
      hfilled.congr fun x hx a ha => hset a fun hc => by
        obtain ⟨k, hk, rfl⟩ := mem_pageInodes.1 hx
        rw [Set.mem_Ico] at ha
        rw [tableBytes, Set.mem_Ico] at hc
        omega
    exact ⟨hfilled'.new, fun x hx => ⟨⟨hsub₁ (hfilled'.log x hx).1,
      fun hc => hpF₁ (hc ▸ (hfilled'.log x hx).1)⟩, (hfilled'.log x hx).2⟩, hfilled'.inj⟩

theorem getCpuid_lt (currentCpu : Nat) : (getCpuid currentCpu).1 < gCpuNums :=
  Nat.mod_lt _ (by decide)

/-- An allocation takes the head of the table of its CPU, refilled if it was empty. -/
theorem allocAtfsInode_ok {s t : State} {node cpuid currentCpu : Nat}
    (hcpu : getCpuid s.currentCpu = (cpuid, currentCpu)) (h : allocAtfsInode A s = .ok (node, t)) :
    ∃ t₁, popAtfsInode t₁ (getAtfsInodeTableAddr cpuid) = (node, t) ∧
      (AllocatorList.count.get s.mem (getAtfsInodeTableAddr cpuid) = 0 ∧
        fillAtfsInodeList A { s with currentCpu } (getAtfsInodeTableAddr cpuid) = .ok t₁ ∨
      AllocatorList.count.get s.mem (getAtfsInodeTableAddr cpuid) ≠ 0 ∧
        t₁ = { s with currentCpu }) := by
  simp only [allocAtfsInode, hcpu] at h
  split_ifs at h with hzero
  · obtain ⟨t₁, hfill, hpop⟩ := bind_eq_ok.1 h
    exact ⟨t₁, Except.ok.inj hpop, .inl ⟨hzero, hfill⟩⟩
  · exact ⟨_, Except.ok.inj h, .inr ⟨hzero, rfl⟩⟩

theorem changesOnly_setInodeNext (hx : InodeIn x p) (m : Memory) (v : Nat) :
    ChangesOnly (inodeBytes x) m (setInodeNext m x v) := by
  have := hx.bounds
  rw [setInodeNext_eq (by omega)]
  exact AtfsInode.changesOnly _ _ _ _

theorem inodeNext_set_self (hx : InodeIn x p) (hv : v < 2 ^ 64) (m : Memory) :
    inodeNext (setInodeNext m x v) x = v := by
  have := hx.bounds
  rw [setInodeNext_eq (by omega), inodeNext_eq (by omega)]
  exact Field.get_set_self_of_lt _ _ hv

theorem inodeNext_set_of_apart (hx : InodeIn x p) (hy : InodeIn y q)
    (hxy : x + 216 ≤ y ∨ y + 216 ≤ x) (m : Memory) (v : Nat) :
    inodeNext (setInodeNext m x v) y = inodeNext m y :=
  inodeNext_keep hy hxy ((changesOnly_setInodeNext hx m v).mono Set.subset_union_right)

theorem table_get_setInodeNext (hi : i < gCpuNums) (hx : InodeIn x p) (f : Field 64) (m : Memory)
    (v : Nat) : f.get (setInodeNext m x v) (getAtfsInodeTableAddr i) =
      f.get m (getAtfsInodeTableAddr i) :=
  table_get_congr hi ((changesOnly_setInodeNext hx m v).eqOn hx.disjoint_tableBytes) f

/-- The address of `next` wraps around for the null offset, into the superblock. -/
theorem changesOnly_setInodeNext_null (m : Memory) (v : Nat) :
    ChangesOnly (Set.Ico 79 87) m (setInodeNext m offsetNull v) := fun a ha =>
  store_apply_of_outside m (by
    rw [AtfsInode.next_off, AtfsInode.next_size, show addU64 offsetNull 80 = 79 from rfl]
    rw [Set.mem_Ico] at ha
    omega)

theorem null_apart {F : Set Nat} (hF : ∀ q ∈ F, IsPage q) :
    Disjoint (Set.Ico 79 87) (metadata ∪ bytesOf F) := by
  refine Set.disjoint_left.2 fun a ha hc => ?_
  rw [Set.mem_Ico] at ha
  rcases hc with hc | ⟨p, hp, hc⟩
  · rw [mem_metadata] at hc
    omega
  · have := (hF p hp).bounds
    rw [mem_pageBytes] at hc
    omega

theorem inodeNext_lt (hx : InodeIn x p) (m : Memory) : inodeNext m x < 2 ^ 64 := by
  have := hx.bounds
  rw [inodeNext_eq (by omega)]
  exact Field.get_lt AtfsInode.next _ _

/-- Linking an inode in behind the head of a chain. -/
theorem InodesApart.link {xs rest : List Nat} {r : Nat} (h : InodesApart F xs) (hx : x ∈ xs)
    (hl : ∀ z ∈ y :: rest, z ∈ xs ∧ x ≠ z) (hnodup : (y :: rest).Nodup)
    (hchain : Segment (inodeNext m) r (y :: rest) offsetNull) :
    Segment (inodeNext (setInodeNext (setInodeNext m y x) x (inodeNext m y))) r (y :: x :: rest)
      offsetNull := by
  obtain ⟨p, hxp, -⟩ := h.placed x hx
  obtain ⟨hyall, hxy⟩ := hl y List.mem_cons_self
  obtain ⟨q, hyq, -⟩ := h.placed y hyall
  have hxb := hxp.bounds
  refine ⟨hchain.head_eq, ?_⟩
  rw [inodeNext_set_of_apart hxp hyq (h.apart x hx y hyall hxy), inodeNext_set_self hyq (by omega)]
  refine ⟨rfl, ?_⟩
  rw [inodeNext_set_self hxp (inodeNext_lt hyq m)]
  refine hchain.2.congr fun z hz => ?_
  obtain ⟨hzall, hxz⟩ := hl z (List.mem_cons_of_mem _ hz)
  obtain ⟨o, hzo, -⟩ := h.placed z hzall
  have hyz : y ≠ z := by
    rintro rfl
    exact (List.nodup_cons.1 hnodup).1 hz
  rw [inodeNext_set_of_apart hxp hzo (h.apart x hx z hzall hxz),
    inodeNext_set_of_apart hyq hzo (h.apart y hyall z hzall hyz)]

end Calls

end Atfs
