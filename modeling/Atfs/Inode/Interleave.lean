import Atfs.Inode.Pool

/-!
# Releases that overlap

`free_atfs_inode` reads the head of its table and the link behind it before it takes the lock, so
that other calls can come between the read and the writes. With the two parts as steps of their
own, a run loses no freed inode if each link is made where the table still looks as it was read.
-/

namespace Atfs

open ByteMemory LinkedChain

/-! ## The two parts of a release -/

/-- A release between its two parts: the inode, and `head` and `next` as they were read. -/
structure PendingFree where
  node : Nat
  head : Nat
  next : Nat

/-- `free_atfs_inode` up to the lock. -/
def readTable (s : State) (allocList node : Nat) : PendingFree :=
  let head := AllocatorList.head.get s.mem allocList
  ⟨node, head, inodeNext s.mem head⟩

/-- `free_atfs_inode` between lock and unlock. -/
def linkInode (s : State) (w : PendingFree) : State :=
  let m := setInodeNext s.mem w.head w.node
  { s with mem := setInodeNext m w.node w.next }

/-- `alloc_atfs_inode` between lock and unlock. -/
def allocFrom (A : PageAllocator) (s : State) (allocList : Nat) : Except Fault (Nat × State) := do
  let s ← if AllocatorList.count.get s.mem allocList = 0 then fillAtfsInodeList A s allocList
    else .ok s
  .ok (popAtfsInode s allocList)

theorem freeAtfsInode_parts (s : State) (node : Nat) :
    freeAtfsInode s node = linkInode { s with currentCpu := (getCpuid s.currentCpu).2 }
      (readTable s (getAtfsInodeTableAddr (getCpuid s.currentCpu).1) node) := rfl

theorem allocAtfsInode_parts (A : PageAllocator) (s : State) :
    allocAtfsInode A s = allocFrom A { s with currentCpu := (getCpuid s.currentCpu).2 }
      (getAtfsInodeTableAddr (getCpuid s.currentCpu).1) := rfl

/-! ## Runs of parts -/

/-- One table with its callers: the inodes in use, the releases under way, and the inodes that have
been freed and not handed out again. -/
structure TablePool where
  state : State
  inUse : List Nat
  waiting : List PendingFree
  freed : List Nat

inductive TableStep
  /-- The release of one of the inodes in use reads the table. -/
  | read (k : Nat)
  /-- One of the releases under way links its inode. -/
  | link (k : Nat)
  | alloc

namespace TablePool

def step (A : PageAllocator) (i : Nat) (s : TablePool) : TableStep → Except Fault TablePool
  | .read k =>
    match s.inUse[k]? with
    | none => .error .nullPointer
    | some node => .ok { s with
        inUse := s.inUse.eraseIdx k
        waiting := readTable s.state (getAtfsInodeTableAddr i) node :: s.waiting }
  | .link k =>
    match s.waiting[k]? with
    | none => .error .nullPointer
    | some w => .ok { s with
        state := linkInode s.state w
        waiting := s.waiting.eraseIdx k
        freed := w.node :: s.freed }
  | .alloc => do
    let (node, state) ← allocFrom A s.state (getAtfsInodeTableAddr i)
    .ok { s with state, inUse := node :: s.inUse, freed := s.freed.filter (· ≠ node) }

def run (A : PageAllocator) (i : Nat) : TablePool → List TableStep → Except Fault TablePool
  | s, [] => .ok s
  | s, c :: cs => do
    let s ← s.step A i c
    run A i s cs

/-- A link finds the head that was read, with the link that was read behind it; and an allocation
refills the table only if no freed inode is left on it. -/
def Unchanged (i : Nat) (s : TablePool) : TableStep → Prop
  | .read _ => True
  | .link k => ∀ w, s.waiting[k]? = some w → w.head ≠ offsetNull ∧
    AllocatorList.head.get s.state.mem (getAtfsInodeTableAddr i) = w.head ∧
    inodeNext s.state.mem w.head = w.next
  | .alloc => AllocatorList.count.get s.state.mem (getAtfsInodeTableAddr i) = 0 → s.freed = []

/-- Every step of a run satisfies `Unchanged` in the state it is made in. -/
def UnchangedRun (A : PageAllocator) (i : Nat) : TablePool → List TableStep → Prop
  | _, [] => True
  | s, c :: cs => s.Unchanged i c ∧ ∀ t, s.step A i c = .ok t → UnchangedRun A i t cs

/-- The chain of the table holds every freed inode once, and none in use. -/
structure Kept (i : Nat) (s : TablePool) (l : List Nat) : Prop where
  chain : Segment (inodeNext s.state.mem)
    (AllocatorList.head.get s.state.mem (getAtfsInodeTableAddr i)) l offsetNull
  null : offsetNull ∉ l
  nodup : l.Nodup
  freed : ∀ x ∈ s.freed, x ∈ l
  notInUse : l.Disjoint s.inUse

/-- The inodes of the chain, those in use and those being freed. -/
def inodes (s : TablePool) (l : List Nat) : List Nat := l ++ (s.inUse ++ s.waiting.map (·.node))

/-- All these inodes lie apart, in pages the allocator does not hold, and the count of the table is
at most the length of its chain. -/
structure Sound (A : PageAllocator) (F : Set Nat) (i : Nat) (l : List Nat)
    (s : TablePool) : Prop where
  rep : A.Rep s.state.mem F
  chain : Segment (inodeNext s.state.mem)
    (AllocatorList.head.get s.state.mem (getAtfsInodeTableAddr i)) l offsetNull
  count : AllocatorList.count.get s.state.mem (getAtfsInodeTableAddr i) ≤ l.length
  apart : InodesApart F (s.inodes l)
  freed : ∀ x ∈ s.freed, x ∈ l

end TablePool

section Steps

variable {A : PageAllocator} {F : Set Nat} {i k x : Nat} {l : List Nat} {s t : TablePool}

theorem TablePool.Sound.kept (h : s.Sound A F i l) : s.Kept i l := by
  obtain ⟨hl, -, hdisj⟩ := List.nodup_append'.1 h.apart.nodup
  exact ⟨h.chain, fun hc => h.apart.offsetNull_notMem (List.mem_append_left _ hc), hl, h.freed,
    fun x hx hx' => hdisj hx (List.mem_append_left _ hx')⟩

theorem perm_cons_eraseIdx {α : Type} {xs : List α} {x : α} (h : xs[k]? = some x) :
    xs.Perm (x :: xs.eraseIdx k) := by
  obtain ⟨hlt, rfl⟩ := List.getElem?_eq_some_iff.1 h
  exact (List.getElem_cons_eraseIdx_perm hlt).symm

/-- Reading changes nothing but who owns the inode. -/
theorem TablePool.Sound.read (h : s.Sound A F i l) (hstep : s.step A i (.read k) = .ok t) :
    t.Sound A F i l := by
  rw [TablePool.step] at hstep
  cases hk : s.inUse[k]? with
  | none => simp [hk] at hstep
  | some x =>
    simp only [hk, Except.ok.injEq] at hstep
    subst hstep
    refine ⟨h.rep, h.chain, h.count, h.apart.perm (List.Perm.append_left l ?_), h.freed⟩
    exact List.perm_middle.trans ((perm_cons_eraseIdx hk).symm.append_right _)

/-- A link that finds the table as it was read puts the inode behind the head. -/
theorem TablePool.Sound.link (h : s.Sound A F i l) (hi : i < gCpuNums)
    (hsame : s.Unchanged i (.link k)) (hstep : s.step A i (.link k) = .ok t) :
    ∃ l', t.Sound A F i l' := by
  rw [TablePool.step] at hstep
  cases hk : s.waiting[k]? with
  | none => simp [hk] at hstep
  | some w =>
    simp only [hk, Except.ok.injEq] at hstep
    subst hstep
    obtain ⟨hnull, hhead, hnext⟩ := hsame w hk
    have hchain := h.chain
    cases l with
    | nil => exact absurd (hhead.symm.trans (segment_nil.1 hchain)) hnull
    | cons y rest =>
      obtain rfl : w.head = y := hhead.symm.trans hchain.head_eq
      have hwaiting : w.node ∈ s.inUse ++ s.waiting.map (·.node) :=
        List.mem_append_right _ (List.mem_map.2 ⟨w, List.mem_of_getElem? hk, rfl⟩)
      obtain ⟨hl, -, hdisj⟩ := List.nodup_append'.1 h.apart.nodup
      have hother (z : Nat) (hz : z ∈ w.head :: rest) : z ∈ s.inodes (w.head :: rest) ∧
          w.node ≠ z := by
        refine ⟨List.mem_append_left _ hz, ?_⟩
        rintro rfl
        exact hdisj hz hwaiting
      have hnode : w.node ∈ s.inodes (w.head :: rest) := List.mem_append_right _ hwaiting
      obtain ⟨p, hxp, hpF⟩ := h.apart.placed _ hnode
      obtain ⟨q, hyq, hqF⟩ := h.apart.placed _ (hother w.head List.mem_cons_self).1
      have hlink := h.apart.link hnode hother hl hchain
      rw [hnext] at hlink
      refine ⟨w.head :: w.node :: rest, ?_, ?_, ?_, ?_, ?_⟩
      · exact hxp.rep_congr (s := { s.state with mem := setInodeNext s.state.mem w.head w.node })
          (hyq.rep_congr h.rep hqF (changesOnly_setInodeNext hyq _ _)) hpF
          (changesOnly_setInodeNext hxp _ _)
      · rw [linkInode]
        simp only
        rw [table_get_setInodeNext hi hxp, table_get_setInodeNext hi hyq]
        exact hlink
      · rw [linkInode]
        simp only
        rw [table_get_setInodeNext hi hxp, table_get_setInodeNext hi hyq]
        exact h.count.trans (by simp)
      · -- the inode moves from the releases under way to the chain
        have hwait := (perm_cons_eraseIdx hk).map (·.node)
        refine h.apart.perm (List.Perm.cons _ (List.Perm.symm ?_))
        refine List.Perm.trans ?_ List.perm_middle
        refine List.Perm.append_left rest ((hwait.append_left s.inUse).trans ?_)
        exact List.perm_middle
      · intro x hx
        rcases List.mem_cons.1 hx with rfl | hx
        · simp
        · have := h.freed x hx
          grind

/-- The head of the table is handed out. -/
theorem TablePool.Sound.pop (hA : KeepsTables A) (h : s.Sound A F i l) (hi : i < gCpuNums)
    (hcount : AllocatorList.count.get s.state.mem (getAtfsInodeTableAddr i) ≠ 0) :
    ∃ x t rest, popAtfsInode s.state (getAtfsInodeTableAddr i) = (x, t) ∧
      TablePool.Sound A F i rest
        { s with state := t, inUse := x :: s.inUse, freed := s.freed.filter (· ≠ x) } := by
  have hle := h.count
  obtain ⟨n, hn⟩ := Nat.exists_eq_succ_of_ne_zero hcount
  cases l with
  | nil => exact absurd (Nat.le_zero.1 hle) hcount
  | cons x rest =>
    have hxall : x ∈ s.inodes (x :: rest) := List.mem_append_left _ List.mem_cons_self
    obtain ⟨p, hin, hpF⟩ := h.apart.placed x hxall
    obtain ⟨t, hpop, hkeep, hhead, hcount', -⟩ := popAtfsInode_spec hi hin h.chain.head_eq hn
    refine ⟨x, t, rest, hpop, hA.rep_inode h.rep hin hpF hkeep, ?_, ?_, ?_, fun y hy => ?_⟩
    · rw [hhead]
      refine h.chain.2.congr fun y hy => ?_
      have hyall : y ∈ s.inodes (x :: rest) := List.mem_append_left _ (List.mem_cons_of_mem _ hy)
      obtain ⟨q, hyq, -⟩ := h.apart.placed y hyall
      refine (inodeNext_keep hyq (h.apart.apart x hxall y hyall ?_) hkeep).symm
      rintro rfl
      exact (List.nodup_cons.1 h.apart.nodup).1 (List.mem_append_left _ hy)
    · rw [hcount']
      rw [hn, List.length_cons] at hle
      omega
    · refine h.apart.perm ?_
      exact List.perm_middle
    · obtain ⟨hy, hyx⟩ := List.mem_filter.1 hy
      exact (List.mem_cons.1 (h.freed y hy)).resolve_left (by simpa using hyx)

/-- A refill replaces the chain, which may hold inodes that nobody has freed. -/
theorem TablePool.Sound.fill (hA : KeepsTables A) (h : s.Sound A F i l) (hi : i < gCpuNums)
    (hnone : s.freed = []) {u : State}
    (hfill : fillAtfsInodeList A s.state (getAtfsInodeTableAddr i) = .ok u) :
    ∃ F' p, TablePool.Sound A F' i (pageInodes p 18) { s with state := u } ∧
      AllocatorList.count.get u.mem (getAtfsInodeTableAddr i) = 18 := by
  obtain ⟨F', p, hF', hsub, hpF, hpF', hholds, -, -⟩ := fillAtfsInodeList_spec hA hi h.rep hfill
  have hrest : InodesApart F (s.inUse ++ s.waiting.map (·.node)) :=
    h.apart.mono subset_rfl (List.subset_append_right _ _) (List.nodup_append'.1 h.apart.nodup).2.1
  refine ⟨F', p, ⟨hF', hholds.chain, hholds.count.le,
    hrest.fill (A.rep_page h.rep p hpF) hpF hsub hpF', ?_⟩, hholds.count⟩
  rw [hnone]
  exact fun x hx => absurd hx List.not_mem_nil

theorem TablePool.Sound.alloc (hA : KeepsTables A) (h : s.Sound A F i l) (hi : i < gCpuNums)
    (hsame : s.Unchanged i .alloc) (hstep : s.step A i .alloc = .ok t) :
    ∃ F' l', t.Sound A F' i l' := by
  rw [TablePool.step] at hstep
  obtain ⟨⟨node, u⟩, halloc, hstep⟩ := bind_eq_ok.1 hstep
  obtain rfl := Except.ok.inj hstep
  simp only [allocFrom] at halloc
  split_ifs at halloc with hzero
  · obtain ⟨u₁, hfill, hpop⟩ := bind_eq_ok.1 halloc
    obtain ⟨F', p, h₁, hcount⟩ := h.fill hA hi (hsame hzero) hfill
    obtain ⟨x, t, rest, hpop', h₂⟩ := h₁.pop hA hi (hcount.trans_ne (by decide))
    obtain ⟨rfl, rfl⟩ := Prod.mk.inj (hpop'.symm.trans (Except.ok.inj hpop))
    exact ⟨F', rest, h₂⟩
  · obtain ⟨x, t, rest, hpop', h₂⟩ := h.pop hA hi hzero
    obtain ⟨rfl, rfl⟩ := Prod.mk.inj (hpop'.symm.trans (Except.ok.inj halloc))
    exact ⟨F, rest, h₂⟩

/-- Every step that finds the table as it should leaves a sound table. -/
theorem TablePool.Sound.step (hA : KeepsTables A) (h : s.Sound A F i l) (hi : i < gCpuNums)
    {c : TableStep} (hsame : s.Unchanged i c) (hstep : s.step A i c = .ok t) :
    ∃ F' l', t.Sound A F' i l' := by
  cases c with
  | read k => exact ⟨F, l, h.read hstep⟩
  | link k =>
    obtain ⟨l', h'⟩ := h.link hi hsame hstep
    exact ⟨F, l', h'⟩
  | alloc => exact h.alloc hA hi hsame hstep

theorem TablePool.run_cons {c : TableStep} {cs : List TableStep} :
    s.run A i (c :: cs) = .ok t ↔ ∃ u, s.step A i c = .ok u ∧ u.run A i cs = .ok t := by
  rw [TablePool.run]
  exact bind_eq_ok

/-- In a run in which every link finds the table as it was read, and no refill meets a freed inode,
every freed inode is on the chain or handed out again after every step, and none on it is in use. -/
theorem interleavedFrees_kept (hA : KeepsTables A) (hi : i < gCpuNums) (h : s.Sound A F i l)
    {cs : List TableStep} (hsame : s.UnchangedRun A i cs) (n : Nat)
    (hrun : s.run A i (cs.take n) = .ok t) : ∃ l', t.Kept i l' := by
  induction n generalizing s F l cs with
  | zero =>
    obtain rfl : s = t := by simpa [TablePool.run] using hrun
    exact ⟨l, h.kept⟩
  | succ n ih =>
    cases cs with
    | nil =>
      obtain rfl : s = t := by simpa [TablePool.run] using hrun
      exact ⟨l, h.kept⟩
    | cons c cs =>
      rw [List.take_succ_cons] at hrun
      obtain ⟨u, hstep, hrun⟩ := TablePool.run_cons.1 hrun
      obtain ⟨F', l', h'⟩ := h.step hA hi hsame.1 hstep
      exact ih h' (hsame.2 u hstep) hrun

end Steps

/-! ## Two releases -/

section Sample

/-- One free inode, and two in use behind it in its page. -/
def twoInUse : TablePool := ⟨oneInode.state, [fileInode + 216, fileInode + 432], [], []⟩

theorem twoInUse_sound : twoInUse.Sound tableAllocator (freeOf (freeLists 0 64)) 0 [fileInode] where
  rep := oneInode_sound.rep
  chain := (oneInode_sound.holds 0 (by decide)).chain
  count := (oneInode_sound.holds 0 (by decide)).count.le
  apart := by
    have hmem (x : Nat) (hx : x ∈ twoInUse.inodes [fileInode]) : ∃ k ≤ 2,
        x = fileInode + 216 * k := by
      have hx : x = fileInode ∨ x = fileInode + 216 ∨ x = fileInode + 432 := by
        simpa [TablePool.inodes, twoInUse] using hx
      rcases hx with rfl | rfl | rfl
      · exact ⟨0, by omega, rfl⟩
      · exact ⟨1, by omega, rfl⟩
      · exact ⟨2, by omega, rfl⟩
    refine ⟨by simp [TablePool.inodes, twoInUse], fun x hx => ?_, fun x hx y hy hxy => ?_⟩
    · obtain ⟨k, hk, rfl⟩ := hmem x hx
      exact ⟨fileInode, fileInode_in (by omega), fileInode_not_free⟩
    · obtain ⟨k, hk, rfl⟩ := hmem x hx
      obtain ⟨k', hk', rfl⟩ := hmem y hy
      omega
  freed x hx := absurd hx List.not_mem_nil

theorem twoInUse_read (node : Nat) :
    readTable twoInUse.state (getAtfsInodeTableAddr 0) node = ⟨node, fileInode, offsetNull⟩ := by
  have hhead := (oneInode_header (i := 0) (by decide)).1
  rw [if_pos rfl] at hhead
  unfold readTable twoInUse
  simp only [hhead, oneInode_next]

/-- A link straight behind its read finds the table as it was read. -/
theorem TablePool.unchanged_of_read {A : PageAllocator} {i k : Nat} {s t : TablePool}
    (hhead : AllocatorList.head.get s.state.mem (getAtfsInodeTableAddr i) ≠ offsetNull)
    (h : s.step A i (.read k) = .ok t) : t.Unchanged i (.link 0) := by
  rw [TablePool.step] at h
  split at h
  · cases h
  · obtain rfl := Except.ok.inj h
    intro w hw
    obtain rfl := Option.some.inj hw
    exact ⟨hhead, rfl, rfl⟩

/-- Both inodes are freed, one call after the other, and an inode is handed out. -/
theorem interleavedFrees_kept_sample :
    ∃ t, twoInUse.run tableAllocator 0 [.read 0, .link 0, .read 0, .link 0, .alloc] = .ok t ∧
      t.inUse = [fileInode] ∧ ∃ l, t.Kept 0 l := by
  have hheader := oneInode_header (i := 0) (by decide)
  rw [if_pos rfl, if_pos rfl] at hheader
  have hi : 0 < gCpuNums := by decide
  have hf : InodeIn fileInode fileInode := fileInode_in (k := 0) (by decide)
  have hx : InodeIn (fileInode + 216) fileInode := fileInode_in (k := 1) (by decide)
  have hy : InodeIn (fileInode + 432) fileInode := fileInode_in (k := 2) (by decide)
  have hne : fileInode ≠ offsetNull := by
    have := fileInode_bounds
    rw [offsetNull_eq]
    omega
  -- linking an inode leaves the header of the table
  have hkeep (st : State) (w : PendingFree) (hw : w.head = fileInode)
    (hin : InodeIn w.node fileInode)
      (g : Field 64) : g.get (linkInode st w).mem (getAtfsInodeTableAddr 0) =
        g.get st.mem (getAtfsInodeTableAddr 0) := by
    simp only [linkInode]
    rw [table_get_setInodeNext hi hin, hw, table_get_setInodeNext hi hf]
  generalize hw₁ : readTable twoInUse.state (getAtfsInodeTableAddr 0) (fileInode + 216) = w₁
  have hw₁head : w₁.head = fileInode := by rw [← hw₁, twoInUse_read]
  have hnode₁ : w₁.node = fileInode + 216 := by rw [← hw₁, twoInUse_read]
  have hkeep₁ := hkeep twoInUse.state w₁ hw₁head (hnode₁ ▸ hx)
  have hs₁ : twoInUse.step tableAllocator 0 (.read 0) =
      .ok ⟨twoInUse.state, [fileInode + 432], [w₁], []⟩ := by rw [← hw₁]; rfl
  have hs₂ : TablePool.step tableAllocator 0 ⟨twoInUse.state, [fileInode + 432], [w₁],
    []⟩ (.link 0) =
      .ok ⟨linkInode twoInUse.state w₁, [fileInode + 432], [], [w₁.node]⟩ := rfl
  generalize linkInode twoInUse.state w₁ = st at hkeep₁ hs₂
  have hhead : AllocatorList.head.get st.mem (getAtfsInodeTableAddr 0) = fileInode :=
    (hkeep₁ AllocatorList.head).trans hheader.1
  generalize hw₂ : readTable st (getAtfsInodeTableAddr 0) (fileInode + 432) = w₂
  have hkeep₂ := hkeep st w₂ (hw₂ ▸ hhead) (hw₂ ▸ hy)
  have hs₃ : TablePool.step tableAllocator 0 ⟨st, [fileInode + 432], [], [w₁.node]⟩ (.read 0) =
      .ok ⟨st, [], [w₂], [w₁.node]⟩ := by rw [← hw₂]; rfl
  have hs₄ : TablePool.step tableAllocator 0 ⟨st, [], [w₂], [w₁.node]⟩ (.link 0) =
      .ok ⟨linkInode st w₂, [], [], [w₂.node, w₁.node]⟩ := rfl
  generalize linkInode st w₂ = st' at hkeep₂ hs₄
  have hhead' : AllocatorList.head.get st'.mem (getAtfsInodeTableAddr 0) = fileInode :=
    (hkeep₂ AllocatorList.head).trans hhead
  have hcount' : AllocatorList.count.get st'.mem (getAtfsInodeTableAddr 0) = 1 :=
    (hkeep₂ AllocatorList.count).trans ((hkeep₁ AllocatorList.count).trans hheader.2)
  obtain ⟨x, u, hpop⟩ : ∃ x u, popAtfsInode st' (getAtfsInodeTableAddr 0) = (x, u) := ⟨_, _, rfl⟩
  obtain rfl : fileInode = x := hhead'.symm.trans (congrArg Prod.fst hpop)
  have halloc : allocFrom tableAllocator st' (getAtfsInodeTableAddr 0) = .ok (fileInode, u) := by
    simp only [allocFrom]
    rw [if_neg (by rw [hcount']; decide)]
    exact congrArg Except.ok hpop
  obtain ⟨t, hs₅, huse⟩ : ∃ t, TablePool.step tableAllocator 0
    ⟨st', [], [], [w₂.node, w₁.node]⟩ .alloc =
      .ok t ∧ t.inUse = [fileInode] := by
    simp only [TablePool.step, halloc]
    exact ⟨_, rfl, rfl⟩
  have hhead₀ : AllocatorList.head.get twoInUse.state.mem (getAtfsInodeTableAddr 0) ≠
      offsetNull := by
    rw [show twoInUse.state = oneInode.state from rfl, hheader.1]
    exact hne
  have hhead₁ : AllocatorList.head.get st.mem (getAtfsInodeTableAddr 0) ≠ offsetNull := by
    rw [hhead]
    exact hne
  have hsame : twoInUse.UnchangedRun tableAllocator 0
      [.read 0, .link 0, .read 0, .link 0, .alloc] := by
    refine ⟨trivial, fun u hu => ⟨TablePool.unchanged_of_read hhead₀ hu, fun v hv => ?_⟩⟩
    obtain rfl := Except.ok.inj (hs₁.symm.trans hu)
    obtain rfl := Except.ok.inj (hs₂.symm.trans hv)
    refine ⟨trivial, fun u hu => ⟨TablePool.unchanged_of_read
      (s := ⟨st, [fileInode + 432], [], [w₁.node]⟩) hhead₁ hu, fun v hv => ?_⟩⟩
    obtain rfl := Except.ok.inj (hs₃.symm.trans hu)
    obtain rfl := Except.ok.inj (hs₄.symm.trans hv)
    refine ⟨fun hzero => ?_, fun _ _ => trivial⟩
    exact absurd (hcount'.symm.trans hzero) (by decide)
  have hrun : twoInUse.run tableAllocator 0 [.read 0, .link 0, .read 0, .link 0, .alloc] = .ok t :=
    TablePool.run_cons.2 ⟨_, hs₁, TablePool.run_cons.2 ⟨_, hs₂, TablePool.run_cons.2 ⟨_, hs₃,
      TablePool.run_cons.2 ⟨_, hs₄, TablePool.run_cons.2 ⟨t, hs₅, rfl⟩⟩⟩⟩⟩
  exact ⟨t, hrun, huse, interleavedFrees_kept tableAllocator_keepsTables hi twoInUse_sound
    hsame 5 hrun⟩

/-- Both releases read the table before either links its inode: the first inode is lost. -/
theorem interleavedFrees_lost :
    ∃ t, twoInUse.run tableAllocator 0 [.read 0, .read 0, .link 1, .link 0] = .ok t ∧
      t.waiting = [] ∧ ∀ l, ¬ t.Kept 0 l := by
  have hhead := (oneInode_header (i := 0) (by decide)).1
  rw [if_pos rfl] at hhead
  have hi : 0 < gCpuNums := by decide
  have hf : InodeIn fileInode fileInode := fileInode_in (k := 0) (by decide)
  have hx : InodeIn (fileInode + 216) fileInode := fileInode_in (k := 1) (by decide)
  have hy : InodeIn (fileInode + 432) fileInode := fileInode_in (k := 2) (by decide)
  have hb := hy.bounds
  obtain ⟨t, hrun, hstate, hwait, hfreed⟩ : ∃ t,
      twoInUse.run tableAllocator 0 [.read 0, .read 0, .link 1, .link 0] = .ok t ∧
      t.state = linkInode (linkInode twoInUse.state
        (readTable twoInUse.state (getAtfsInodeTableAddr 0) (fileInode + 216)))
        (readTable twoInUse.state (getAtfsInodeTableAddr 0) (fileInode + 432)) ∧
      t.waiting = [] ∧ t.freed = [fileInode + 432, fileInode + 216] := ⟨_, rfl, rfl, rfl, rfl⟩
  refine ⟨t, hrun, hwait, fun l hkept => ?_⟩
  rw [twoInUse_read, twoInUse_read] at hstate
  -- the second link overwrites the first
  have hsecond : Segment (inodeNext t.state.mem)
      (AllocatorList.head.get t.state.mem (getAtfsInodeTableAddr 0))
      [fileInode, fileInode + 432] offsetNull := by
    rw [hstate]
    simp only [linkInode]
    rw [table_get_setInodeNext hi hy, table_get_setInodeNext hi hf, table_get_setInodeNext hi hx,
      table_get_setInodeNext hi hf]
    refine ⟨hhead, ?_⟩
    rw [inodeNext_set_of_apart hy hf (by omega), inodeNext_set_self hf (by omega)]
    exact ⟨rfl, inodeNext_set_self hy (by decide) _⟩
  have hl := hkept.chain.unique_of_end hsecond hkept.null (by
    simp only [List.mem_cons, List.not_mem_nil, or_false, offsetNull_eq]
    omega)
  have hlost := hkept.freed (fileInode + 216) (by rw [hfreed]; simp)
  rw [hl] at hlost
  simp at hlost

end Sample

end Atfs
