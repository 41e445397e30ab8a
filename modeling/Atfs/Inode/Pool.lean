import Atfs.Inode.Supply

/-!
# Runs of inode calls

Over any run of allocations and frees: an allocation loses no inode, and one that is freed stands on
a table but in no count.
-/

namespace Atfs

open ByteMemory LinkedChain

/-! ## Runs of calls -/

/-- The inode allocator, with the inodes in use and those freed and not handed out again. -/
structure InodePool where
  state : State
  inUse : List Nat
  freed : List Nat

inductive InodeCall
  | alloc
  /-- Free one of the inodes in use. -/
  | free (k : Nat)

def InodeCall.isFree : InodeCall → Bool
  | .alloc => false
  | .free _ => true

namespace InodePool

def step (A : PageAllocator) (s : InodePool) : InodeCall → Except Fault InodePool
  | .alloc => do
    let (node, state) ← allocAtfsInode A s.state
    .ok ⟨state, node :: s.inUse, s.freed.filter (· ≠ node)⟩
  | .free k =>
    match s.inUse[k]? with
    | none => .error .nullPointer
    | some node => .ok ⟨freeAtfsInode s.state node, s.inUse.eraseIdx k, node :: s.freed⟩

def run (A : PageAllocator) : InodePool → List InodeCall → Except Fault InodePool
  | s, [] => .ok s
  | s, c :: cs => do
    let s ← s.step A c
    run A s cs

/-- No inode is lost or in two places. -/
structure Conserved (s : InodePool) (tables : Nat → List Nat) : Prop where
  holds : ∀ i < gCpuNums, offsetNull ∉ tables i ∧ TableHolds s.state.mem i (tables i)
  disjoint : ∀ i < gCpuNums, ∀ j < gCpuNums, i ≠ j → (tables i).Disjoint (tables j)
  notInUse : ∀ i < gCpuNums, (tables i).Disjoint s.inUse
  nodup : s.inUse.Nodup
  freed : ∀ x ∈ s.freed, ∃ i < gCpuNums, x ∈ tables i

end InodePool

/-- The inodes of the tables and those in use lie apart, in pages the allocator does not hold. -/
structure InodePool.Sound (A : PageAllocator) (F : Set Nat) (tables : Nat → List Nat)
    (s : InodePool) : Prop where
  rep : A.Rep s.state.mem F
  holds : ∀ i < gCpuNums, TableHolds s.state.mem i (tables i)
  nodup : (allInodes tables ++ s.inUse).Nodup
  placed : ∀ x ∈ allInodes tables ++ s.inUse, ∃ p, InodeIn x p ∧ p ∉ F
  apart : ∀ x ∈ allInodes tables ++ s.inUse, ∀ y ∈ allInodes tables ++ s.inUse, x ≠ y →
    x + 216 ≤ y ∨ y + 216 ≤ x
  freed : ∀ x ∈ s.freed, x ∈ allInodes tables

/-! ## Allocations -/

section Alloc

variable {A : PageAllocator} {F : Set Nat} {tables : Nat → List Nat} {s s' : InodePool}
  {i x p : Nat} {rest : List Nat}

theorem InodePool.Sound.apart_all (h : s.Sound A F tables) :
    InodesApart F (allInodes tables ++ s.inUse) := ⟨h.nodup, h.placed, h.apart⟩

theorem InodePool.Sound.mem_left (hi : i < gCpuNums) (hx : x ∈ tables i) :
    x ∈ allInodes tables ++ s.inUse := List.mem_append_left _ (mem_allInodes.2 ⟨i, hi, hx⟩)

theorem InodePool.Sound.conserved (h : s.Sound A F tables) : s.Conserved tables := by
  obtain ⟨hall, huse, hdisj⟩ := List.nodup_append'.1 h.nodup
  refine ⟨fun i hi => ⟨fun hc => ?_, h.holds i hi⟩, fun i hi j hj => allInodes_disjoint hall hi hj,
    fun i hi x hx hx' => hdisj (mem_allInodes.2 ⟨i, hi, hx⟩) hx', huse,
    fun x hx => mem_allInodes.1 (h.freed x hx)⟩
  exact h.apart_all.offsetNull_notMem (InodePool.Sound.mem_left (s := s) hi hc)

/-- The head of a table that is not empty is handed out. -/
theorem InodePool.Sound.pop (hA : KeepsTables A) (h : s.Sound A F tables) (hi : i < gCpuNums)
    (hx : tables i = x :: rest) :
    ∃ t, popAtfsInode s.state (getAtfsInodeTableAddr i) = (x, t) ∧
      InodePool.Sound A F (Function.update tables i rest)
        ⟨t, x :: s.inUse, s.freed.filter (· ≠ x)⟩ := by
  have hholds := h.holds i hi
  rw [hx] at hholds
  have hxmem : x ∈ tables i := hx ▸ List.mem_cons_self
  have hxall := InodePool.Sound.mem_left (s := s) hi hxmem
  obtain ⟨p, hin, hpF⟩ := h.placed x hxall
  obtain ⟨t, hpop, hkeep, hhead, hcount, hother⟩ :=
    popAtfsInode_spec hi hin hholds.chain.head_eq hholds.count
  have hperm : (allInodes (Function.update tables i rest) ++ x :: s.inUse).Perm
      (allInodes tables ++ s.inUse) :=
    List.perm_middle.trans (((allInodes_pop hi hx).append_right s.inUse))
  have hnodup := hperm.nodup_iff.2 h.nodup
  -- every inode left on a table is apart from the one handed out
  have hnext {j y : Nat} (hj : j < gCpuNums) (hy : y ∈ Function.update tables i rest j) :
      inodeNext t.mem y = inodeNext s.state.mem y := by
    have hyl : y ∈ allInodes (Function.update tables i rest) := mem_allInodes.2 ⟨j, hj, hy⟩
    have hyall := hperm.mem_iff.1 (List.mem_append_left _ hyl)
    obtain ⟨q, hyq, -⟩ := h.placed y hyall
    refine inodeNext_keep hyq (h.apart x hxall y hyall ?_) hkeep
    rintro rfl
    exact (List.nodup_append'.1 hnodup).2.2 hyl List.mem_cons_self
  refine ⟨t, hpop, ?_, fun j hj => ?_, hnodup, fun y hy => h.placed y (hperm.mem_iff.1 hy),
    fun y hy z hz => h.apart y (hperm.mem_iff.1 hy) z (hperm.mem_iff.1 hz), fun y hy => ?_⟩
  · exact hA.rep_inode h.rep hin hpF hkeep
  · by_cases hji : j = i
    · subst hji
      rw [Function.update_self]
      refine ⟨?_, hcount⟩
      rw [hhead]
      refine hholds.chain.2.congr fun y hy => (hnext hj ?_).symm
      rwa [Function.update_self]
    · have hj' := h.holds j hj
      rw [Function.update_of_ne hji]
      refine ⟨?_, (hother j hji hj _).trans hj'.count⟩
      rw [hother j hji hj]
      refine hj'.chain.congr fun y hy => (hnext hj ?_).symm
      rwa [Function.update_of_ne hji]
  · obtain ⟨hy, hyx⟩ := List.mem_filter.1 hy
    have := (allInodes_pop hi hx).mem_iff.2 (h.freed y hy)
    exact (List.mem_cons.1 this).resolve_left (by simpa using hyx)

/-- An empty table is refilled. -/
theorem InodePool.Sound.fill (hA : KeepsTables A) (h : s.Sound A F tables) (hi : i < gCpuNums)
    (hnil : tables i = []) {t : State}
    (hfill : fillAtfsInodeList A s.state (getAtfsInodeTableAddr i) = .ok t) :
    ∃ F' p, InodePool.Sound A F' (Function.update tables i (pageInodes p 18))
      ⟨t, s.inUse, s.freed⟩ := by
  obtain ⟨F', p, hF', hsub, hpF, hpF', hholds, hother, hkeep, -⟩ :=
    fillAtfsInodeList_spec hA hi h.rep hfill
  have hp := A.rep_page h.rep p hpF
  have hperm : (allInodes (Function.update tables i (pageInodes p 18)) ++ s.inUse).Perm
      (pageInodes p 18 ++ (allInodes tables ++ s.inUse)) := by
    rw [← List.append_assoc]
    exact (allInodes_fill hi hnil).append_right s.inUse
  have hkeepInode {y : Nat} (hy : y ∈ allInodes tables ++ s.inUse) :
      inodeNext t.mem y = inodeNext s.state.mem y := by
    obtain ⟨q, hyq, hqF⟩ := h.placed y hy
    have hb := hyq.bounds
    refine inodeNext_congr (by omega) fun a ha => hkeep q hyq.1 hqF ?_
    have := hyq.subset_bodyBytes ha
    rw [mem_bodyBytes] at this
    rw [mem_pageBytes]
    omega
  have hnew := (h.apart_all.fill hp hpF hsub hpF').perm hperm
  refine ⟨F', p, hF', fun j hj => ?_, hnew.nodup, hnew.placed, hnew.apart, fun x hx => ?_⟩
  · by_cases hji : j = i
    · subst hji
      rw [Function.update_self]
      exact hholds
    · have hj' := h.holds j hj
      rw [Function.update_of_ne hji]
      refine ⟨?_, (hother j hji hj _).trans hj'.count⟩
      rw [hother j hji hj]
      exact hj'.chain.congr fun y hy => (hkeepInode (InodePool.Sound.mem_left hj hy)).symm
  · exact (allInodes_fill hi hnil).mem_iff.2 (List.mem_append_right _ (h.freed x hx))

/-- An allocation hands out an inode that was on a table or is new. -/
theorem InodePool.Sound.alloc (hA : KeepsTables A) (h : s.Sound A F tables)
    (hstep : s.step A .alloc = .ok s') : ∃ F' tables', s'.Sound A F' tables' := by
  rw [InodePool.step] at hstep
  obtain ⟨⟨node, t⟩, halloc, hstep⟩ := bind_eq_ok.1 hstep
  obtain rfl := Except.ok.inj hstep
  have hi := getCpuid_lt s.state.currentCpu
  rcases hcpu : getCpuid s.state.currentCpu with ⟨i, currentCpu⟩
  rw [hcpu] at hi
  obtain ⟨t₁, hpop, hfill⟩ := allocAtfsInode_ok hcpu halloc
  obtain ⟨F₁, tables₁, h₁, hne⟩ : ∃ F₁ tables₁,
      InodePool.Sound A F₁ tables₁ ⟨t₁, s.inUse, s.freed⟩ ∧ tables₁ i ≠ [] := by
    rcases hfill with ⟨hzero, hfill⟩ | ⟨hzero, rfl⟩
    · have hnil : tables i = [] := List.length_eq_zero_iff.1 ((h.holds _ hi).count.symm.trans hzero)
      have h' : InodePool.Sound A F tables
          ⟨{ s.state with currentCpu }, s.inUse, s.freed⟩ :=
        ⟨h.rep, h.holds, h.nodup, h.placed, h.apart, h.freed⟩
      obtain ⟨F', p, hs⟩ := h'.fill hA hi hnil hfill
      refine ⟨F', _, hs, ?_⟩
      rw [Function.update_self, pageInodes_succ]
      exact List.cons_ne_nil _ _
    · refine ⟨F, tables, ⟨h.rep, h.holds, h.nodup, h.placed, h.apart, h.freed⟩,
        fun hnil => hzero ?_⟩
      exact (h.holds _ hi).count.trans (by rw [hnil]; rfl)
  obtain ⟨x, rest, hx⟩ := List.exists_cons_of_ne_nil hne
  obtain ⟨t₂, hpop', hs⟩ := h₁.pop hA hi hx
  obtain ⟨rfl, rfl⟩ := Prod.mk.inj (hpop'.symm.trans hpop)
  exact ⟨F₁, _, hs⟩

end Alloc

/-! ## Releases -/

section Free

variable {A : PageAllocator} {F : Set Nat} {tables : Nat → List Nat} {s s' : InodePool}
  {m : Memory} {i k x y p q v : Nat}

/-- An inode freed to a table that is not empty stands behind its head and in no count. -/
theorem InodePool.Sound.free_cons (h : s.Sound A F tables) (hi : i < gCpuNums)
    (hx : x ∈ s.inUse) {y : Nat} {rest : List Nat} (hy : tables i = y :: rest) :
    ∃ m, m = setInodeNext (setInodeNext s.state.mem y x) x (inodeNext s.state.mem y) ∧
      Segment (inodeNext m) (AllocatorList.head.get m (getAtfsInodeTableAddr i)) (y :: x :: rest)
        offsetNull ∧
      AllocatorList.count.get m (getAtfsInodeTableAddr i) = (y :: rest).length := by
  have hholds := h.holds i hi
  rw [hy] at hholds
  have hxall : x ∈ allInodes tables ++ s.inUse := List.mem_append_right _ hx
  have htable {z : Nat} (hz : z ∈ y :: rest) : z ∈ allInodes tables ++ s.inUse ∧ x ≠ z := by
    have hzt : z ∈ tables i := hy ▸ hz
    refine ⟨InodePool.Sound.mem_left (s := s) hi hzt, ?_⟩
    rintro rfl
    exact (List.nodup_append'.1 h.nodup).2.2 (mem_allInodes.2 ⟨i, hi, hzt⟩) hx
  obtain ⟨p, hxp, -⟩ := h.placed x hxall
  obtain ⟨q, hyq, -⟩ := h.placed y (htable List.mem_cons_self).1
  have hnull : offsetNull ∉ y :: rest := hy ▸ (h.conserved.holds i hi).1
  refine ⟨_, rfl, ?_, ?_⟩
  · rw [table_get_setInodeNext hi hxp, table_get_setInodeNext hi hyq]
    exact h.apart_all.link hxall (fun z hz => htable hz) (hholds.chain.nodup hnull) hholds.chain
  · rw [table_get_setInodeNext hi hxp, table_get_setInodeNext hi hyq]
    exact hholds.count

/-- An inode freed to an empty table is put on no table. -/
theorem InodePool.Sound.free_nil (h : s.Sound A F tables) (hx : x ∈ s.inUse) :
    ∃ m, m = setInodeNext (setInodeNext s.state.mem offsetNull x) x
      (inodeNext s.state.mem offsetNull) ∧
      ∀ j < gCpuNums, TableHolds m j (tables j) := by
  have hxall : x ∈ allInodes tables ++ s.inUse := List.mem_append_right _ hx
  obtain ⟨p, hxp, -⟩ := h.placed x hxall
  have hxb := hxp.bounds
  have hnull (m : Memory) := changesOnly_setInodeNext_null m x
  refine ⟨_, rfl, fun j hj => ?_⟩
  have hholds := h.holds j hj
  have hget (f : Field 64) : f.get (setInodeNext (setInodeNext s.state.mem offsetNull x) x
      (inodeNext s.state.mem offsetNull)) (getAtfsInodeTableAddr j) =
      f.get s.state.mem (getAtfsInodeTableAddr j) := by
    rw [table_get_setInodeNext hj hxp]
    refine table_get_congr hj ((hnull _).eqOn (Set.disjoint_left.2 fun a ha hc => ?_)) f
    rw [Set.mem_Ico] at ha
    rw [tableBytes, Set.mem_Ico] at hc
    omega
  refine ⟨?_, (hget _).trans hholds.count⟩
  rw [hget]
  refine hholds.chain.congr fun z hz => ?_
  have hzall := InodePool.Sound.mem_left (s := s) hj hz
  obtain ⟨r, hzr, -⟩ := h.placed z hzall
  have hzb := hzr.bounds
  have hzx : x ≠ z := by
    rintro rfl
    exact (List.nodup_append'.1 h.nodup).2.2 (mem_allInodes.2 ⟨j, hj, hz⟩) hx
  rw [inodeNext_set_of_apart hxp hzr (h.apart x hxall z hzall hzx)]
  refine (inodeNext_congr (by omega) ((hnull _).eqOn (Set.disjoint_left.2 fun a ha hc => ?_))).symm
  rw [Set.mem_Ico] at ha
  rw [inodeBytes, Set.mem_Ico] at hc
  omega

/-- After a release the count of a table is too small, or the inode is on none. -/
theorem InodePool.Sound.not_conserved (h : s.Sound A F tables)
    (hstep : s.step A (.free k) = .ok s') (tables' : Nat → List Nat) : ¬ s'.Conserved tables' := by
  intro hc
  rw [InodePool.step] at hstep
  cases hk : s.inUse[k]? with
  | none => simp [hk] at hstep
  | some x =>
    have hx : x ∈ s.inUse := List.mem_of_getElem? hk
    simp only [hk, Except.ok.injEq] at hstep
    have hi := getCpuid_lt s.state.currentCpu
    rcases hcpu : getCpuid s.state.currentCpu with ⟨i, currentCpu⟩
    rw [hcpu] at hi
    have hhead := (h.holds i hi).chain
    cases hl : tables i with
    | nil =>
      rw [hl] at hhead
      obtain ⟨m, hm, hholds⟩ := h.free_nil hx
      have hmem : s'.state.mem = m := by
        rw [← hstep, freeAtfsInode, hcpu, hm]
        simp only [segment_nil.1 hhead]
      obtain ⟨j, hj, hxj⟩ := hc.freed x (by rw [← hstep]; exact List.mem_cons_self)
      obtain ⟨hnull, hnew⟩ := hc.holds j hj
      rw [hmem] at hnew
      obtain heq := hnew.chain.unique_of_end (hholds j hj).chain hnull (h.conserved.holds j hj).1
      exact h.conserved.notInUse j hj (heq ▸ hxj) hx
    | cons y rest =>
      rw [hl] at hhead
      obtain ⟨m, hm, hchain, hcount⟩ := h.free_cons hi hx hl
      have hmem : s'.state.mem = m := by
        rw [← hstep, freeAtfsInode, hcpu, hm]
        simp only [hhead.head_eq]
      obtain ⟨hnull, hnew⟩ := hc.holds i hi
      rw [hmem] at hnew
      have hold : offsetNull ∉ y :: rest := hl ▸ (h.conserved.holds i hi).1
      have hxnull : offsetNull ≠ x := by
        rintro rfl
        obtain ⟨p, hp, -⟩ := h.placed _ (List.mem_append_right _ hx)
        have := hp.bounds
        rw [offsetNull_eq] at this
        omega
      have heq := hnew.chain.unique_of_end hchain hnull
        (by simp at hold ⊢; exact ⟨hold.1, hxnull, hold.2⟩)
      have hlen := hnew.count.symm.trans hcount
      rw [heq] at hlen
      simp at hlen

end Free

/-! ## Whole runs -/

section Run

variable {A : PageAllocator} {F : Set Nat} {tables : Nat → List Nat} {s s' : InodePool}
  {cs : List InodeCall}

theorem InodePool.run_cons {c : InodeCall} :
    s.run A (c :: cs) = .ok s' ↔ ∃ t, s.step A c = .ok t ∧ t.run A cs = .ok s' := by
  rw [InodePool.run]
  exact bind_eq_ok

/-- In a run of allocations every state is sound. -/
theorem InodePool.Sound.run (hA : KeepsTables A) (h : s.Sound A F tables)
    (hall : ∀ c ∈ cs, c.isFree = false) (hrun : s.run A cs = .ok s') :
    ∃ F' tables', s'.Sound A F' tables' := by
  induction cs generalizing s F tables with
  | nil =>
    rw [InodePool.run, Except.ok.injEq] at hrun
    exact ⟨F, tables, hrun ▸ h⟩
  | cons c cs ih =>
    obtain ⟨t, hstep, hrest⟩ := InodePool.run_cons.1 hrun
    cases c with
    | free k => exact absurd (hall _ List.mem_cons_self) (by simp [InodeCall.isFree])
    | alloc =>
      obtain ⟨F', tables', ht⟩ := h.alloc hA hstep
      exact ih ht (fun c hc => hall c (List.mem_cons_of_mem _ hc)) hrest

/-- Up to the first release the state is sound; the release itself loses count of an inode. -/
theorem InodePool.Sound.isFree_eq_false (hA : KeepsTables A) (h : s.Sound A F tables)
    (hrun : s.run A cs = .ok s')
    (hcons : ∀ k t, s.run A (cs.take k) = .ok t → ∃ tables', t.Conserved tables') :
    ∀ c ∈ cs, c.isFree = false := by
  induction cs generalizing s F tables with
  | nil => exact fun c hc => absurd hc List.not_mem_nil
  | cons c cs ih =>
    obtain ⟨t, hstep, hrest⟩ := InodePool.run_cons.1 hrun
    cases c with
    | free k =>
      obtain ⟨tables', ht⟩ := hcons 1 t (InodePool.run_cons.2 ⟨t, hstep, rfl⟩)
      exact absurd ht (h.not_conserved hstep tables')
    | alloc =>
      obtain ⟨F', tables', ht⟩ := h.alloc hA hstep
      have hall := ih ht hrest fun k u hu => hcons (k + 1) u (by
        rw [List.take_succ_cons]
        exact InodePool.run_cons.2 ⟨t, hstep, hu⟩)
      intro c hc
      rcases List.mem_cons.1 hc with rfl | hc
      · rfl
      · exact hall c hc

/-- The inode allocator conserves inodes at every step of a run exactly if the run frees none. -/
theorem inodes_conserved_iff (hA : KeepsTables A) (h : s.Sound A F tables)
    (hrun : s.run A cs = .ok s') :
    (∀ k t, s.run A (cs.take k) = .ok t → ∃ tables', t.Conserved tables') ↔
      ∀ c ∈ cs, c.isFree = false := by
  constructor
  · exact h.isFree_eq_false hA hrun
  · intro hall k t ht
    obtain ⟨F', tables', hs⟩ := h.run hA (fun c hc => hall c (List.mem_of_mem_take hc)) ht
    exact ⟨tables', hs.conserved⟩

end Run

/-! ## A table of one inode -/

section Sample

open Classical in
/-- The repository's allocator, where it keeps the contract and the inode tables. -/
noncomputable def tableAllocator : PageAllocator where
  alloc m cpu n := (keptAlloc m cpu n).filter fun r => decide (Set.EqOn r.2.1 m tableBytes)
  free := pageAllocator.free
  Rep := HoldsPages
  rep_page := pageAllocator.rep_page
  rep_congr := pageAllocator.rep_congr
  alloc_spec := by
    intro m F cpu n node m' cpu' hF hn h
    rw [Option.filter_eq_some_iff] at h
    obtain ⟨hkept, -⟩ := h
    rw [keptAlloc, Option.filter_eq_some_iff] at hkept
    exact of_decide_eq_true hkept.2 F hF hn
  free_spec := pageAllocator.free_spec

open Classical in
theorem tableAllocator_keepsTables : KeepsTables tableAllocator where
  alloc := by
    intro m F cpu n node m' cpu' hF hn h
    simp only [tableAllocator, Option.filter_eq_some_iff] at h
    exact of_decide_eq_true h.2
  rep := by
    rintro m m' F ⟨lists, hchains, rfl⟩ heq
    refine ⟨lists, hchains.congr (heq.mono (Set.union_subset_union_left _ fun a ha => ?_)), rfl⟩
    rw [pageListBytes, Set.mem_Ico] at ha
    refine ⟨by rw [mem_metadata]; omega, fun hc => ?_⟩
    rw [tableBytes, Set.mem_Ico] at hc
    omega

theorem tableAllocator_rep : tableAllocator.Rep = HoldsPages := by rw [tableAllocator]

theorem tableAllocator_free : tableAllocator.free = keptFree := by
  rw [tableAllocator, pageAllocator_free]

open Classical in
/-- Cutting pages off a local list leaves the inode tables. -/
theorem tableAllocator_alloc {m : Memory} {lists : Nat → List Nat} {counts : Nat → Nat} {k : Nat}
    (currentCpu : Nat) (h : Linked m lists counts) (hk : 1 ≤ k)
    (hkc : k ≤ counts (localIndex currentCpu))
    (hle : counts (localIndex currentCpu) ≤ (lists (localIndex currentCpu)).length) :
    tableAllocator.alloc m currentCpu k = allocFreePages m currentCpu k := by
  have hi := localIndex_bounds currentCpu
  obtain ⟨r, halloc, hkeeps, -, heq⟩ := h.allocLocal hk hkc hle
  have htables : Set.EqOn r.2.1 m tableBytes := by
    intro a ha
    refine heq fun hc => ?_
    rw [tableBytes, Set.mem_Ico] at ha
    rcases hc with ⟨j, -, hc, -⟩ | ⟨q, hq, hc, -⟩
    · rw [getLocalPageListAddr_eq] at hc
      omega
    · have := ((h.listPair hi).isPage hq).bounds
      omega
  rw [tableAllocator]
  simp only
  rw [keptAlloc_of_keeps halloc hkeeps, halloc, Option.filter_some, if_pos (decide_eq_true htables)]

theorem tableAllocator_follows : tableAllocator.Follows where
  rep := tableAllocator_rep
  alloc := fun currentCpu h hk _ hkc hle => tableAllocator_alloc currentCpu h hk hkc hle
  free := by
    intro m lists counts p l currentCpu h hne _ _ _
    rw [tableAllocator_free, keptFree_eq h hne]

/-- The headers of the tables: the first table holds one inode, the others none. -/
def tableHeader (o : Nat) : UInt8 :=
  if o % 64 < 8 then wordByte (if o < 64 then fileInode else offsetNull) (o % 64)
  else if o % 64 < 16 then wordByte (if o < 64 then 1 else 0) (o % 64 - 8)
  else 0

/-- In the page of the inodes the first one is linked to nothing. -/
def nullNext (k o : Nat) : UInt8 :=
  if k = 4096 ∧ 80 ≤ o ∧ o < 88 then wordByte offsetNull (o - 80) else 0

/-- One free inode, linked to nothing; the inode behind it in its page is in use. -/
def oneInode : InodePool where
  state :=
    { mem := fun a => if 32768 ≤ a ∧ a < 36864 then tableHeader (a - 32768) else
        (freeImage 0 64 nullNext).mem a
      index := fun _ _ => offsetNull
      currentCpu := 0
      trace := [] }
  inUse := [fileInode + 216]
  freed := []

def oneInodeTables (i : Nat) : List Nat := if i = 0 then [fileInode] else []

theorem fileInode_bounds : 114688 ≤ fileInode ∧ fileInode + 432 ≤ 2 ^ 34 := by
  rw [fileInode, pageOff_eq]
  omega

theorem fileInode_in {k : Nat} (hk : k ≤ 17) : InodeIn (fileInode + 216 * k) fileInode := by
  refine ⟨isPage_pageOff (by omega), by omega, ?_⟩
  rw [show sizeofAtfsInode = 216 from rfl]
  omega

theorem fileInode_not_free : fileInode ∉ freeOf (freeLists 0 64) := by
  have h := pageOff_not_free (k := 4096) le_rfl
  rwa [fileFrontier] at h

/-- What the headers of the tables say. -/
theorem tableHeader_get {m : Memory} {i : Nat} (hi : i < gCpuNums)
    (hm : ∀ o < 4096, m (32768 + o) = tableHeader o) :
    AllocatorList.head.get m (getAtfsInodeTableAddr i) = (if i = 0 then fileInode else offsetNull) ∧
      AllocatorList.count.get m (getAtfsInodeTableAddr i) = (if i = 0 then 1 else 0) := by
  have hb := fileInode_bounds
  rw [gCpuNums] at hi
  have hbyte {o : Nat} (ho : o < 64) : m (getAtfsInodeTableAddr i + o) =
      tableHeader (64 * i + o) := by
    rw [getAtfsInodeTableAddr_eq, Nat.add_assoc, hm _ (by omega)]
  have hmod {o : Nat} (ho : o < 64) : (64 * i + o) % 64 = o ∧ (64 * i + o < 64 ↔ i = 0) := by
    omega
  constructor
  · refine (load_eq_of_bytes fun j hj => ?_).trans (Nat.mod_eq_of_lt ?_)
    · rw [AllocatorList.head_size] at hj
      rw [AllocatorList.head_off, Nat.add_zero, hbyte (by omega), tableHeader, (hmod (by omega)).1,
        if_pos hj, wordByte]
      simp only [(hmod (o := j) (by omega)).2]
    · rw [AllocatorList.head_size, offsetNull_eq]
      split_ifs <;> omega
  · refine (load_eq_of_bytes fun j hj => ?_).trans (Nat.mod_eq_of_lt ?_)
    · rw [AllocatorList.count_size] at hj
      rw [AllocatorList.count_off, Nat.add_assoc, hbyte (by omega), tableHeader,
        (hmod (by omega)).1, if_neg (by omega), if_pos (by omega),
        Nat.add_sub_cancel_left, wordByte]
      simp only [(hmod (o := 8 + j) (by omega)).2]
    · rw [AllocatorList.count_size]
      split_ifs <;> omega

theorem oneInode_header {i : Nat} (hi : i < gCpuNums) :
    AllocatorList.head.get oneInode.state.mem (getAtfsInodeTableAddr i) =
        (if i = 0 then fileInode else offsetNull) ∧
      AllocatorList.count.get oneInode.state.mem (getAtfsInodeTableAddr i) =
        (if i = 0 then 1 else 0) := by
  refine tableHeader_get hi fun o ho => ?_
  rw [oneInode]
  simp only
  rw [if_pos (by omega), Nat.add_sub_cancel_left]

theorem allInodes_oneInode : allInodes oneInodeTables = [fileInode] := by
  rw [allInodes, show gCpuNums = 63 + 1 from rfl, List.range_succ_eq_map, List.flatMap_cons,
    List.flatMap_map]
  have hnil : (List.range 63).flatMap (fun i => oneInodeTables i.succ) = [] :=
    List.flatMap_eq_nil_iff.2 fun i _ => if_neg (Nat.succ_ne_zero i)
  rw [hnil]
  rfl

theorem oneInode_next : inodeNext oneInode.state.mem fileInode = offsetNull := by
  have hb := fileInode_bounds
  rw [inodeNext_eq (by omega)]
  refine (load_eq_of_bytes (v := offsetNull) fun j hj => ?_).trans (by decide)
  rw [AtfsInode.next_size] at hj
  rw [AtfsInode.next_off, oneInode]
  simp only
  rw [if_neg (by omega), fileInode, Nat.add_assoc, Image.mem_page _ (by omega), if_pos (by omega),
    freeImage]
  simp only
  rw [nullNext, if_pos ⟨rfl, by omega, by omega⟩, Nat.add_sub_cancel_left, wordByte]

theorem oneInode_sound :
    oneInode.Sound tableAllocator (freeOf (freeLists 0 64)) oneInodeTables := by
  have hb := fileInode_bounds
  have hwf : WellFormed (freeImage 0 64 nullNext).mem
      (freeLists 0 64) := freeImage_wellFormed (by decide) (by decide)
  have hmem {x : Nat} (hx : x ∈ allInodes oneInodeTables ++ oneInode.inUse) :
      ∃ k ≤ 1, x = fileInode + 216 * k := by
    rcases List.mem_append.1 hx with hx | hx
    · obtain ⟨i, hi, hx⟩ := mem_allInodes.1 hx
      rw [oneInodeTables] at hx
      split_ifs at hx with h
      · exact ⟨0, by omega, List.mem_singleton.1 hx⟩
      · exact absurd hx List.not_mem_nil
    · exact ⟨1, le_rfl, List.mem_singleton.1 hx⟩
  refine ⟨⟨freeLists 0 64, hwf.chains.congr fun a ha => ?_, rfl⟩, fun i hi => ?_, ?_,
    fun x hx => ?_, fun x hx y hy hxy => ?_, fun x hx => absurd hx List.not_mem_nil⟩
  · rw [oneInode]
    simp only
    rw [if_neg]
    rcases ha with ha | ⟨q, ⟨i, hi, hq⟩, ha⟩
    · rw [pageListBytes, Set.mem_Ico] at ha
      omega
    · have := (hwf.page i hi q hq).1.bounds
      rw [mem_pageBytes] at ha
      omega
  · obtain ⟨hhead, hcount⟩ := oneInode_header hi
    have hnext := oneInode_next
    generalize oneInode.state.mem = m at *
    rw [oneInodeTables]
    split_ifs with h
    · rw [if_pos h] at hhead hcount
      exact ⟨by rw [hhead]; exact ⟨rfl, hnext⟩, hcount⟩
    · rw [if_neg h] at hhead hcount
      exact ⟨hhead, hcount⟩
  · rw [allInodes_oneInode]
    exact List.nodup_cons.2
      ⟨fun hc => by have := List.mem_singleton.1 hc; omega, List.nodup_singleton _⟩
  · obtain ⟨k, hk, rfl⟩ := hmem hx
    exact ⟨fileInode, fileInode_in (by omega), fileInode_not_free⟩
  · obtain ⟨k, hk, rfl⟩ := hmem hx
    obtain ⟨k', hk', rfl⟩ := hmem hy
    omega

/-- Every local list has 64 pages. -/
theorem oneInode_stocked :
    Stocked tableAllocator oneInode.state.mem (freeOf (freeLists 0 64)) 64 := by
  have hwf : WellFormed (freeImage 0 64 nullNext).mem (freeLists 0 64) :=
    freeImage_wellFormed (by decide) (by decide)
  have hstock : Stocked tableAllocator (freeImage 0 64 nullNext).mem (freeOf (freeLists 0 64)) 64 :=
    ⟨tableAllocator_rep ▸ ⟨_, hwf.chains, rfl⟩, freeImage_roomy (by decide) (by decide) (by decide)⟩
  have hmem {a : Nat} (ha : a < 32768 ∨ 36864 ≤ a) :
      oneInode.state.mem a = (freeImage 0 64 nullNext).mem a := if_neg (by omega)
  refine hstock.congr_nodes tableAllocator_follows (fun a ha => hmem ?_) fun q hq a ha => hmem ?_
  · rw [pageListBytes, Set.mem_Ico] at ha
    omega
  · have := (tableAllocator.rep_page hstock.rep q hq).bounds
    rw [nodeWords, Set.mem_Ico] at ha
    omega

/-- The free inode is handed out, and then one of a table that is refilled first. -/
theorem oneInode_alloc : ∃ s, oneInode.run tableAllocator [.alloc, .alloc] = .ok s := by
  have hcount := (oneInode_header (i := 0) (by decide)).2
  have hhead := (oneInode_header (i := 0) (by decide)).1
  obtain ⟨t, hpop, hstock, -⟩ := Stocked.popAtfsInode (s := { oneInode.state with currentCpu := 1 })
    oneInode_stocked tableAllocator_follows (by decide) (fileInode_in (k := 0) (by decide))
    fileInode_not_free hhead hcount
  have hfirst : allocAtfsInode tableAllocator oneInode.state = .ok (fileInode, t) := by
    have hcpu : getCpuid oneInode.state.currentCpu = (0, 1) := rfl
    simp only [allocAtfsInode, hcpu]
    rw [if_neg (by rw [hcount]; decide)]
    exact congrArg Except.ok hpop
  obtain ⟨⟨x, u⟩, hsecond⟩ := ((hstock.lasts tableAllocator_follows).mono
    (show 19 ≤ 64 by decide)).allocAtfsInode tableAllocator_keepsTables hstock.rep
  have hstep₁ : oneInode.step tableAllocator .alloc =
      .ok ⟨t, fileInode :: oneInode.inUse, oneInode.freed.filter (· ≠ fileInode)⟩ := by
    rw [InodePool.step, hfirst]
    rfl
  obtain ⟨s, hstep₂⟩ : ∃ s, InodePool.step tableAllocator
      ⟨t, fileInode :: oneInode.inUse, oneInode.freed.filter (· ≠ fileInode)⟩ .alloc = .ok s := by
    rw [InodePool.step, hsecond]
    exact ⟨_, rfl⟩
  exact ⟨s, InodePool.run_cons.2 ⟨_, hstep₁, InodePool.run_cons.2 ⟨s, hstep₂, rfl⟩⟩⟩

theorem inodes_conserved_iff_alloc :
    AllocatorList.count.get oneInode.state.mem (getAtfsInodeTableAddr 1) = 0 ∧
      ∃ t, oneInode.run tableAllocator [.alloc, .alloc] = .ok t ∧ ∃ tables, t.Conserved tables := by
  obtain ⟨s, hs⟩ := oneInode_alloc
  exact ⟨(oneInode_header (i := 1) (by decide)).2, s, hs,
    (inodes_conserved_iff tableAllocator_keepsTables oneInode_sound hs).2
      (by simp [InodeCall.isFree]) 2 s hs⟩

/-- The inode in use is freed: it stands on the table and in no count. -/
theorem freeAtfsInode_not_conserved :
    ∃ t, oneInode.run tableAllocator [.free 0] = .ok t ∧ ∀ tables, ¬ t.Conserved tables := by
  obtain ⟨t, ht⟩ : ∃ t, oneInode.step tableAllocator (.free 0) = .ok t := ⟨_, rfl⟩
  exact ⟨t, InodePool.run_cons.2 ⟨t, ht, rfl⟩, oneInode_sound.not_conserved ht⟩

end Sample

end Atfs
