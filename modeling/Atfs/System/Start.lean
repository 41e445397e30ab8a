import Atfs.Io.Supply
import Atfs.System.Mounted
import Atfs.Volume.Stock

/-!
# The first calls

A region as its initialisation is to leave it. With pages on the lists a creating call gets an
inode, and the calls on it return.
-/

namespace Atfs

open ByteMemory LinkedChain LinkedRing LabelledRun

/-- The region as its initialisation is to leave it: the allocator has its pages, the inode tables
are empty, the list is empty, and nothing is in any index. -/
structure FreshRegion (b : Nat) (A : PageAllocator) (s : State) : Prop where
  rep : ∃ F, A.Rep s.mem F
  tables : ∀ i < gCpuNums, TableHolds s.mem i []
  ring : Circle (linksOf b s.mem) (sListAddr b) []
  index : ∀ x key, s.index x key = offsetNull

namespace System

/-- The system when no call has been made. -/
def start (s : State) : System := ⟨s, [], [], [], none, ⟨0, 0⟩⟩

variable {b : Nat} {A : PageAllocator} {R : RadixTree} {F : Set Nat} {s₀ : State}

theorem mounted_start (h : FreshRegion b A s₀) (hF : A.Rep s₀.mem F) :
    Mounted b A F (fun _ => ⟨0, [], ⟨0, []⟩⟩) (fun _ => []) [] [] (start s₀) := by
  have hnone : allInodes (fun _ => []) = [] := by simp [allInodes]
  refine ⟨Volume.filed_empty hF h.index, ⟨h.tables, ?_, .nil⟩, ?_, h.ring, ?_, ?_⟩
  · rw [hnone]
    exact .refl _
  · rw [hnone]
    exact fun x hx => absurd hx List.not_mem_nil
  · exact fun p hp => absurd hp List.not_mem_nil
  · exact fun x hx => absurd hx (by simp [start])

theorem sound_start (h : FreshRegion b A s₀) : (start s₀).Sound b A := by
  obtain ⟨F, hF⟩ := h.rep
  exact ⟨F, _, _, _, _, mounted_start h hF⟩

/-! ## Calls that return -/

section Sound

variable {b : Nat} {A : PageAllocator} {s : System} {x : Nat}

theorem Sound.nodup (h : s.Sound b A) : (s.creating ++ s.listed).Nodup := by
  obtain ⟨F, logs, tables, homes, files, hs⟩ := h
  exact (List.nodup_append'.1 (hs.tabled.all.nodup_iff.2 hs.tabled.nodup)).2.1

theorem Sound.ne_offsetNull (h : s.Sound b A) (hx : x ∈ s.creating ++ s.listed) :
    x ≠ offsetNull := by
  obtain ⟨F, logs, tables, homes, files, hs⟩ := h
  have := (hs.filed.sound.log x (hs.tabled.handed_subset hx)).inodeIn.bounds
  rw [offsetNull_eq]
  omega

/-- A call finds its file. -/
theorem Sound.finds {e : Call} {c : ListCall} (R : RadixTree) (hA : TablesApart A) (hb : Mapping b)
    (h : s.Sound b A) (hl : e.listCall x = some c) (hx : x ∈ s.listed) :
    ∃ u, SysStep b A R s (.enter x e) u ∧ u.Sound b A ∧
      u.state = (s.listStep b c).state ∧ u.listed = touch s.listed x ∧
      u.entered = (x, e) :: s.entered ∧
      u.collecting = s.collecting ∧ u.counters = s.counters.count e := by
  obtain ⟨-, hfound, hrecency, -⟩ := Call.listCall_spec hl
  have hne := h.ne_offsetNull (List.mem_append_right _ hx)
  have hstep : SysStep b A R s (.enter x e) (s.enter b x e c) := .enter hl ((hfound s).2 (.inr hx))
  have hsound := (h.step hA hb hstep id).1
  rw [s.enter_of_ne b c hne] at hstep hsound
  exact ⟨_, hstep, hsound, rfl, (hrecency _).trans (if_neg hne), rfl, rfl, rfl⟩

/-- A read at a given place runs and leaves the region. -/
theorem Sound.reads {cnt offset : Nat} {buf : Memory} {rest : List (Nat × Call)} (R : RadixTree)
    (hA : TablesApart A) (hb : Mapping b) (h : s.Sound b A)
    (hentered : s.entered = (x, .pread buf cnt offset) :: rest) (hfit : offset + cnt < 2 ^ 64) :
    ∃ ret out,
      SysStep b A R s (.run x (.pread buf cnt offset) (.bytes ret out)) { s with entered := rest } ∧
      System.Sound b A { s with entered := rest } := by
  obtain ⟨ret, out, hread, -⟩ := nvmioRead_fileOf s.state x hfit buf
  have hrun : answerCall A R x s.state (.pread buf cnt offset) = .ok (.bytes ret out, s.state) := by
    rw [answerCall, atfspread, hread]
    rfl
  have hfirst : s.entered[0]? = some (x, .pread buf cnt offset) := by
    rw [hentered, List.getElem?_cons_zero]
  have hfits : (viewOf s.state.mem x).Fits (.pread buf cnt offset) := hfit
  have hstep := SysStep.run (b := b) hfirst hfits hrun
  rw [hentered, List.eraseIdx_cons_zero] at hstep
  exact ⟨ret, out, hstep, (h.step hA hb hstep id).1⟩

end Sound

/-- The system is in order, has pages to spare, and the first page is in use. -/
structure Supplied (b : Nat) (n : Nat) (s : System) : Prop where
  sound : s.Sound b volumeAllocator
  spare : ∃ F, Spare s.state.mem F n ∧ getFreeSpaceBaseAddr ∉ F

/-- The collector decides as before, and the logs that were empty are. -/
structure Quiet (s u : System) : Prop where
  task : ∀ c, gcTaskThread u.state.mem c = gcTaskThread s.state.mem c
  log : ∀ y ∈ s.creating ++ s.listed, EmptyLog s.state.mem y → EmptyLog u.state.mem y

/-- The threads are where they were. -/
structure SameThreads (s u : System) : Prop where
  entered : u.entered = s.entered
  collecting : u.collecting = s.collecting
  counters : u.counters = s.counters

section Supplied

variable {b n : Nat} {R : RadixTree} {s t u : System} {c : ListCall}

/-- The pages to spare are those that the volume has free. -/
theorem Supplied.spare_of {F : Set Nat} {logs : Nat → FileLog} {tables : Nat → List Nat}
    {homes files : List Nat} (h : Supplied b n s)
    (hs : Mounted b volumeAllocator F logs tables homes files s) :
    Spare s.state.mem F n ∧ getFreeSpaceBaseAddr ∉ F := by
  obtain ⟨F', hspare, hfirst⟩ := h.spare
  obtain rfl := volumeAllocator_follows.rep_unique hspare.stocked.rep hs.filed.sound.rep
  exact ⟨hspare, hfirst⟩

/-- What the threads are about has no part in it. -/
theorem Supplied.of_state (h : Supplied b n t) (hu : u.Sound b volumeAllocator)
    (hstate : u.state = t.state) :
    Supplied b n u := by
  refine ⟨hu, ?_⟩
  rw [hstate]
  exact h.spare

theorem Quiet.of_state (h : Quiet s t) (hstate : u.state = t.state) : Quiet s u := by
  refine ⟨fun k => ?_, fun y hy hlog => ?_⟩
  · rw [hstate]
    exact h.task k
  · rw [hstate]
    exact h.log y hy hlog

/-- A creating call gets an inode. -/
theorem Supplied.alloc (R : RadixTree) (hb : Mapping b) (h : Supplied b (n + 18 + 1) s) : ∃ x u,
    SysStep b volumeAllocator R s (.alloc x) u ∧ Supplied b n u ∧ Quiet s u ∧ SameThreads s u ∧
      u.creating = x :: s.creating ∧ u.listed = s.listed ∧
      (AllocatorList.count.get s.state.mem (getAtfsInodeTableAddr (getCpuid s.state.currentCpu).1) =
        0 →
        EmptyLog u.state.mem x) := by
  have hA := volumeAllocator_tablesApart
  obtain ⟨F, logs, tables, homes, files, hs⟩ := h.sound
  obtain ⟨hspare, hfirst⟩ := h.spare_of hs
  have hclean : CleanAlloc volumeAllocator s.state :=
    cleanAlloc hA.toKeepsTables hs.filed.sound.rep hspare.clean
  obtain ⟨x, t, F₁, halloc, hspare₁, hsub, hempty, htask⟩ :=
    hs.filed.sound.allocAtfsInode_spare (v := ⟨s.state, homes, files⟩) hs.tabled hspare
  obtain ⟨-, -, -, -, -, -, -, -, hkeep⟩ :=
    hs.filed.allocAtfsInode (R := R) hA.toKeepsTables hs.tabled hclean halloc
  refine ⟨x, _, .alloc hclean halloc, ⟨(hs.alloc hA R hb hclean halloc).1, F₁, hspare₁,
    fun hc => hfirst (hsub hc)⟩, ⟨htask hfirst, fun y hy hlog => ?_⟩, ⟨rfl, rfl, rfl⟩, rfl, rfl,
    fun hzero => hempty ?_⟩
  · have hwords : Set.EqOn t.mem s.state.mem (Set.Ico y (y + 80)) :=
      (hkeep y hy).mono fun a ha => by
      rw [Set.mem_Ico] at ha
      rw [inodeBytes, Set.mem_Ico]
      omega
    exact hlog.congr (fileWord_congr hwords _ (by simp)) (fileWord_congr hwords _ (by simp))
  · exact List.length_eq_zero_iff.1 ((hs.tabled.holds _ (getCpuid_lt _)).count.symm.trans hzero)

/-- Editing the list disturbs nothing. -/
theorem Supplied.listStep (hb : Mapping b) (h : Supplied b n s) (hgiven : c.Given s)
    (hc : ¬ c.Reinserts) :
    Supplied b n (s.listStep b c) ∧ Quiet s (s.listStep b c) := by
  obtain ⟨F, logs, tables, homes, files, hs⟩ := h.sound
  obtain ⟨hspare, hfirst⟩ := h.spare_of hs
  have hframe := hs.listStep_frame hb hgiven hc
  have hside := hs.filed.sound.listed (List.Subset.refl _) hframe
  refine ⟨⟨⟨_, _, _, _, _, (hs.listStep hb hgiven hc).1⟩, F,
    hs.filed.sound.spare_listed hspare hframe, hfirst⟩,
    ⟨fun _ => hside.gcTaskThread hs.filed.sound _, fun y hy hlog => ?_⟩⟩
  exact hside.emptyLog hs.filed.sound (hs.tabled.handed_subset hy) hlog

/-- The inode is put on the list. -/
theorem Supplied.create {x : Nat} (R : RadixTree) (hb : Mapping b) (h : Supplied b n s) (fd : Int)
    (hx : x ∈ s.creating) :
    ∃ u, SysStep b volumeAllocator R s (.create (.atfscreat fd offsetNull x)) u ∧
      Supplied b n u ∧ Quiet s u ∧
      SameThreads s u ∧ u.creating = s.creating.erase x ∧ u.listed = touch s.listed x := by
  have hgiven : (ListCall.atfscreat fd offsetNull x).Given s := ⟨.inl rfl, .inr hx⟩
  have hne := h.sound.ne_offsetNull (List.mem_append_left _ hx)
  obtain ⟨hready, hquiet⟩ := h.listStep hb hgiven id
  refine ⟨_, .create trivial hgiven, hready, hquiet, ⟨rfl, rfl, rfl⟩, ?_, ?_⟩
  · rw [listStep_creating, ListCall.inserted, if_pos ⟨rfl, hne⟩, Option.toList_some, List.diff_cons,
      List.diff_nil]
  · rw [listStep_listed, ListCall.recency, if_pos rfl, touchFound, if_neg hne]

/-- A call finds its file. -/
theorem Supplied.enter {x : Nat} {e : Call} (R : RadixTree) (hb : Mapping b) (h : Supplied b n s)
    (hl : e.listCall x = some c) (hx : x ∈ s.listed) : ∃ u,
    SysStep b volumeAllocator R s (.enter x e) u ∧ Supplied b n u ∧ Quiet s u ∧
      u.listed = touch s.listed x ∧ u.entered = (x, e) :: s.entered ∧ u.collecting = s.collecting ∧
      u.counters = s.counters.count e := by
  obtain ⟨u, hstep, hsound, hstate, hthreads⟩ :=
    h.sound.finds R volumeAllocator_tablesApart hb hl hx
  obtain ⟨hplain, hfound, -⟩ := Call.listCall_spec hl
  obtain ⟨hready, hquiet⟩ := h.listStep hb ((hfound s).2 (.inr hx)) hplain
  exact ⟨u, hstep, hready.of_state hsound hstate, hquiet.of_state hstate, hthreads⟩

/-- The collector wakes up and takes the last inode. -/
theorem Supplied.wake (R : RadixTree) (hb : Mapping b) (h : Supplied b n s)
    (hidle : s.collecting = none) (htask : (gcTaskThread s.state.mem s.counters).2 = true) :
    ∃ u, SysStep b volumeAllocator R s (.wake s.listed.getLast?) u ∧ Supplied b n u ∧ Quiet s u ∧
      u.creating = s.creating ∧ u.listed = ListCall.startGcTask.recency s.listed ∧
      u.entered = s.entered ∧
      u.collecting = s.listed.getLast? ∧ u.counters = ⟨0, 0⟩ := by
  have hstep : SysStep b volumeAllocator R s (.wake (s.woken b).collecting) (s.woken b) :=
    .wake hidle
  have hsound := (h.sound.step volumeAllocator_tablesApart hb hstep id).1
  obtain ⟨hready, hquiet⟩ := h.listStep (c := .startGcTask) hb trivial id
  rcases s.woken_cases b with ⟨-, hc⟩ | ⟨hw, -⟩
  · rw [htask] at hc
    cases hc
  · have hlast : (s.take b ⟨0, 0⟩).collecting = s.listed.getLast? :=
      (take_collecting s b ⟨0, 0⟩).trans (h.sound.recent hb).oldest
    have hstate := take_state s b ⟨0, 0⟩
    have hlisted := take_listed s b ⟨0, 0⟩
    have hentered := take_entered s b ⟨0, 0⟩
    have hcreating := take_creating s b ⟨0, 0⟩
    have hcounters := take_counters s b ⟨0, 0⟩
    rw [hw] at hsound
    rw [hw, hlast] at hstep
    generalize s.take b ⟨0, 0⟩ = u at hstep hsound hlast hstate hlisted hentered hcreating hcounters
    exact ⟨u, hstep, hready.of_state hsound hstate, hquiet.of_state hstate, hcreating, hlisted,
      hentered, hlast, hcounters⟩

/-- A write to one page runs. -/
theorem Supplied.pwrite {x cnt offset : Nat} {buf : Memory} {rest : List (Nat × Call)}
    (hb : Mapping b) (h : Supplied b (n + 2) s)
    (hentered : s.entered = (x, .pwrite buf cnt offset) :: rest) (hpos : 1 ≤ cnt)
    (hone : offset % 4096 + cnt ≤ 4096) (hfit : offset + cnt < 2 ^ 64) :
    ∃ a u, SysStep b volumeAllocator radixTree s (.run x (.pwrite buf cnt offset) a) u ∧
      u.Sound b volumeAllocator ∧
      u.listed = s.listed ∧ u.entered = rest := by
  obtain ⟨F, logs, tables, homes, files, hs⟩ := h.sound
  obtain ⟨hspare, -⟩ := h.spare_of hs
  have hx : x ∈ files := hs.listed_subset (hs.entered (x, .pwrite buf cnt offset)
    (by rw [hentered]; simp))
  have hready := hs.filed.ready hx
  have hpre : WritePre volumeAllocator ((logs x).frontier F) s.state x cnt offset :=
    ⟨hready.holds, hready.tail, hready.inodePage, hready.mapped, hpos, hfit⟩
  have hnum : (cnt + offset % 4096 + 4095) / 4096 = 1 := by omega
  obtain ⟨t', hwrite, -⟩ := nvmioWrite_lasts (n := n) hpre radixTree buf
    ((hspare.stocked.lasts volumeAllocator_follows).mono (by rw [hnum]; exact le_rfl))
  have hrun : answerCall volumeAllocator radixTree x s.state (.pwrite buf cnt offset) =
      .ok (.value cnt, { t' with mem := updateInodeSize t'.mem x cnt }) := by
    rw [answerCall, atfspwrite, hwrite]
    rfl
  have hfirst : s.entered[0]? = some (x, .pwrite buf cnt offset) := by
    rw [hentered, List.getElem?_cons_zero]
  have hfits : (viewOf s.state.mem x).Fits (.pwrite buf cnt offset) := hfit
  have hstep := SysStep.run (b := b) hfirst hfits hrun
  rw [hentered, List.eraseIdx_cons_zero] at hstep
  exact ⟨_, _, hstep, (h.sound.step volumeAllocator_tablesApart hb hstep id).1, rfl, rfl⟩

/-- The collector comes to the end of an empty log. -/
theorem Supplied.collect {x : Nat} (R : RadixTree) (hb : Mapping b) (h : Supplied b n s)
    (hx : s.collecting = some x) (hlog : EmptyLog s.state.mem x) :
    SysStep b volumeAllocator R s (.collect x) { s with collecting := none } ∧
      Supplied b n { s with collecting := none } := by
  have hstep : SysStep b volumeAllocator R s (.collect x) { s with collecting := none } :=
    .collect hx (hlog.gcInode 0)
  exact ⟨hstep, (h.sound.step volumeAllocator_tablesApart hb hstep id).1, h.spare⟩

end Supplied

end System

/-! ## A region -/

section Region

/-- Page 0 is in use, 64 pages are on every local list, and the global list and the tables are
empty. -/
def freshMem (a : Nat) : UInt8 :=
  if 32768 ≤ a ∧ a < 36864 then if a % 64 < 8 then 255 else 0
  else if 49152 ≤ a ∧ a < 49168 then if a < 49160 then 255 else 0
  else (freeImage 1 64 fun _ _ => 0).mem a

/-- The region mapped at `2 ^ 20`, with its list initialised. -/
def freshState : State where
  mem := initListHead (2 ^ 20) freshMem (sListAddr (2 ^ 20))
  index := fun _ _ => offsetNull
  currentCpu := 0
  trace := []

def freshLists : Nat → List Nat := Function.update (freeLists 1 64) 0 []

theorem mapping_freshState : Mapping (2 ^ 20) := by
  rw [Mapping]
  decide

theorem freshMem_of_image {a : Nat} (ha : 49168 ≤ a) :
    freshMem a = (freeImage 1 64 fun _ _ => 0).mem a := by
  rw [freshMem, if_neg (by omega), if_neg (by omega)]

theorem load_null {m : Memory} {a : Nat} (h : ∀ j < 8, m (a + j) = 255) :
    load m a 8 = offsetNull := by
  have hbyte : ∀ j < 8, UInt8.ofNat (offsetNull / 256 ^ j) = 255 := by decide
  exact (load_eq_of_bytes fun j hj => (h j hj).trans (hbyte j hj).symm).trans (by decide)

theorem load_zero {m : Memory} {a n : Nat} (h : ∀ j < n, m (a + j) = 0) : load m a n = 0 :=
  (load_eq_of_bytes (v := 0) fun j hj => by rw [h j hj, Nat.zero_div]; rfl).trans (Nat.zero_mod _)

theorem freshMem_wellFormed : WellFormed freshMem freshLists := by
  have h : WellFormed (freeImage 1 64 fun _ _ => 0).mem (freeLists 1 64) :=
    freeImage_wellFormed (by decide) (by decide)
  have hnil : freshLists 0 = [] := Function.update_self ..
  have hlist {i : Nat} (hi : i ≠ 0) : freshLists i = freeLists 1 64 i := Function.update_of_ne hi ..
  have hheader {i : Nat} (hi : i ≠ 0) (f : Field 56) :
      f.get freshMem (getLocalPageListAddr i) = f.get (freeImage 1 64 fun _ _ => 0).mem
        (getLocalPageListAddr i) := by
    refine Field.get_congr fun a ha => freshMem_of_image ?_
    rw [Field.bytes, getLocalPageListAddr_eq, Set.mem_Ico] at ha
    omega
  have hmem {i p : Nat} (hp : p ∈ freshLists i) : i ≠ 0 ∧ p ∈ freeLists 1 64 i := by
    by_cases hi : i = 0
    · rw [hi, hnil] at hp
      exact absurd hp List.not_mem_nil
    · exact ⟨hi, hlist hi ▸ hp⟩
  refine ⟨fun i hi => ?_, fun i hi p hp => ?_, fun i hi => ?_, fun i hi j hj hij p hpi hpj => ?_⟩
  · by_cases h0 : i = 0
    · subst h0
      rw [hnil]
      constructor
      · refine load_null fun j hj => ?_
        rw [getLocalPageListAddr_eq, PageList.head_off, freshMem, if_neg (by omega),
          if_pos (by omega), if_pos (by omega)]
      · refine load_zero fun j hj => ?_
        rw [PageList.count_size] at hj
        rw [getLocalPageListAddr_eq, PageList.count_off, freshMem, if_neg (by omega),
          if_pos (by omega), if_neg (by omega)]
    · rw [hlist h0]
      refine (h.rep i hi).frame (fun p hp => ?_) (hheader h0 _) (hheader h0 _)
      have hpage := (h.page i hi p hp).1
      refine hpage.pageLink_congr fun a ha => (freshMem_of_image ?_).symm
      have := hpage.bounds
      rw [Set.mem_Ico] at ha
      omega
  · obtain ⟨h0, hp⟩ := hmem hp
    obtain ⟨hpage, hoff⟩ := h.page i hi p hp
    refine ⟨hpage, (Field.get_congr fun a ha => freshMem_of_image ?_).trans hoff⟩
    have := hpage.bounds
    rw [hpage.getNvmPageNodeAddr_eq, Field.bytes, Set.mem_Ico] at ha
    omega
  · by_cases h0 : i = 0
    · rw [h0, hnil]
      exact .nil
    · rw [hlist h0]
      exact h.nodup i hi
  · exact h.disjoint i hi j hj hij (hmem hpi).2 (hmem hpj).2

theorem freshState_frame : ChangesOnly (Set.Ico 112 128) freshMem freshState.mem := by
  have hoff : nvmAddr2off (2 ^ 20) (sListAddr (2 ^ 20)) = 112 := by decide
  rw [freshState, initListHead, setListPrev, setListNext, hoff]
  exact ((ListHead.next.changesOnly_set _ _ _).mono (Set.Ico_subset_Ico (by simp) (by simp))).trans
    ((ListHead.prev.changesOnly_set _ _ _).mono (Set.Ico_subset_Ico (by simp) (by simp)))

theorem freshState_mem {a : Nat} (ha : 128 ≤ a) : freshState.mem a = freshMem a :=
  freshState_frame a fun hc => by
    rw [Set.mem_Ico] at hc
    omega

theorem freshState_spare : Spare freshState.mem (freeOf freshLists) 64 := by
  have hpage : ∀ p ∈ freeOf freshLists, IsPage p := fun p ⟨i, hi, hp⟩ =>
    (freshMem_wellFormed.page i hi p hp).1
  have hwf : WellFormed freshState.mem freshLists := by
    refine freshMem_wellFormed.congr fun a ha => freshState_mem ?_
    rcases ha with ha | ⟨p, hp, ha⟩
    · rw [pageListBytes, Set.mem_Ico] at ha
      omega
    · have := (hpage p hp).bounds
      rw [mem_pageBytes] at ha
      omega
  have hlen (i : Nat) (hi : 1 ≤ i) : (freshLists i).length = 64 := by
    rw [freshLists, Function.update_of_ne (by omega)]
    exact length_freeLists (by omega)
  refine ⟨⟨?_, hwf.roomy (fun i hi _ => (hlen i hi).ge) fun i hi _ => .inl ?_⟩, fun T hT => ?_⟩
  · rw [volumeAllocator_rep]
    exact ⟨_, hwf.chains, rfl⟩
  · rw [hlen i hi]
    decide
  · obtain ⟨k, hk, rfl⟩ := hpage T hT
    have hb := pageOff_eq k
    have hzero (g : Field 40) (hg : 16 ≤ g.off) : g.get freshState.mem (pageOff k + 4096) = 0 := by
      have hfits := g.fits
      refine load_zero fun j hj => ?_
      rw [freshState_mem (by omega), freshMem_of_image (by omega), Nat.add_assoc, Nat.add_assoc,
        Image.mem_page _ (by omega), if_neg (by omega), if_neg (by omega), if_neg (by omega)]
    rw [counters, hzero _ (by decide), hzero _ (by decide), hzero _ (by decide),
      hzero _ (by decide)]

theorem freshState_region : FreshRegion (2 ^ 20) volumeAllocator freshState where
  rep := ⟨freeOf freshLists, freshState_spare.stocked.rep⟩
  tables i hi := by
    rw [gCpuNums] at hi
    have hbyte {o : Nat} (ho : o < 16) :
        freshState.mem (getAtfsInodeTableAddr i + o) = if o < 8 then 255 else 0 := by
      rw [getAtfsInodeTableAddr_eq, freshState_mem (by omega), freshMem, if_pos (by omega)]
      exact if_congr (by omega) rfl rfl
    constructor
    · refine load_null fun j hj => ?_
      rw [AllocatorList.head_off, Nat.add_zero, hbyte (by omega), if_pos hj]
    · refine load_zero fun j hj => ?_
      rw [AllocatorList.count_size] at hj
      rw [AllocatorList.count_off, Nat.add_assoc, hbyte (by omega), if_neg (by omega)]
  ring := (apart_sListAddr mapping_freshState).circle_initListHead _
  index _ _ := rfl

/-- The collector may run as soon as one kind of access dominates. -/
theorem gcTaskThread_freshState {c : AccessCounters} (hc : c.limit ≠ 0) :
    (gcTaskThread freshState.mem c).2 = true := by
  have hzero : PageList.count.get freshState.mem getFreeSpaceBaseAddr = 0 := by
    refine load_zero fun j hj => ?_
    have hk := pageOff_eq 0
    rw [PageList.count_size] at hj
    rw [getFreeSpaceBaseAddr_eq, PageList.count_off, freshState_mem (by omega),
      freshMem_of_image (by omega), show 114688 + 8 + j = pageOff 0 +
      (8 + j) by omega, Image.mem_page _ (by omega), if_pos (by omega)]
    rfl
  rw [gcTaskThread_snd, hzero]
  exact Nat.pos_of_ne_zero hc

end Region

/-! ## Two files -/

namespace System

section Sample

variable {R : RadixTree}

theorem plain_of_map {steps : List (System × SysCall)}
    (h : ∀ c ∈ steps.map Prod.snd, ¬ c.Reinserts) :
    ∀ p ∈ steps, ¬ p.2.Reinserts := fun _ hp => h _ (List.mem_map_of_mem hp)

theorem filterMap_label {β : Type*} (f : SysCall → Option β) (steps : List (System × SysCall)) :
    (steps.filterMap fun p => f p.2) = (steps.map Prod.snd).filterMap f := by
  rw [List.filterMap_map]
  rfl

/-- Two files have been created, `y` before `x`. -/
structure Created (s : System) (x y : Nat) : Prop where
  ready : Supplied (2 ^ 20) 26 s
  listed : s.listed = [x, y]
  entered : s.entered = []
  collecting : s.collecting = none
  counters : s.counters = ⟨0, 0⟩
  log : EmptyLog s.state.mem y
  task : ∀ c, gcTaskThread s.state.mem c = gcTaskThread freshState.mem c

theorem ready_freshState : Supplied (2 ^ 20) 64 (start freshState) := by
  refine ⟨sound_start freshState_region, _, freshState_spare, ?_⟩
  rintro ⟨i, hi, hp⟩
  have h0 : i ≠ 0 := by
    rintro rfl
    rw [freshLists, Function.update_self] at hp
    exact absurd hp List.not_mem_nil
  rw [freshLists, Function.update_of_ne h0] at hp
  obtain ⟨k, hk, ⟨hi0, -⟩ | ⟨-, hlow, -⟩⟩ := mem_freeLists.1 hp
  · exact h0 hi0
  · rw [pageOff_eq, getFreeSpaceBaseAddr_eq] at hk
    omega

theorem created_run (R : RadixTree) : ∃ (steps : List (System × SysCall)) (s : System) (x y : Nat),
    Run (SysStep (2 ^ 20) volumeAllocator R) (start freshState) steps s ∧ steps.map Prod.snd =
      [.alloc y, .alloc x, .create (.atfscreat 3 offsetNull y),
        .create (.atfscreat 4 offsetNull x)] ∧
      Created s x y := by
  have hb := mapping_freshState
  obtain ⟨y, s₁, hy, hready₁, hquiet₁, hthreads₁, hcreating₁, hlisted₁, hlog⟩ :=
    Supplied.alloc (n := 45) R hb ready_freshState
  have hlog₁ := hlog (freshState_region.tables _ (getCpuid_lt _)).count
  obtain ⟨x, s₂, hx, hready₂, hquiet₂, hthreads₂, hcreating₂, hlisted₂, -⟩ :=
    Supplied.alloc (n := 26) R hb hready₁
  have hcreating : s₂.creating = [x, y] := by rw [hcreating₂, hcreating₁]; rfl
  have hlisted : s₂.listed = [] := by rw [hlisted₂, hlisted₁]; rfl
  have hxy : x ≠ y := by
    have hnodup := (List.nodup_append'.1 hready₂.sound.nodup).1
    rw [hcreating] at hnodup
    rintro rfl
    exact (List.nodup_cons.1 hnodup).1 List.mem_cons_self
  obtain ⟨s₃, hy₃, hready₃, hquiet₃, hthreads₃, hcreating₃, hlisted₃⟩ :=
    hready₂.create R hb 3 (show y ∈ s₂.creating by rw [hcreating]; simp)
  have hcreating₃ : s₃.creating = [x] := by
    rw [hcreating₃, hcreating, List.erase_cons_tail (by simpa using hxy), List.erase_cons_head]
  have hlisted₃ : s₃.listed = [y] := by
    rw [hlisted₃, hlisted]
    rfl
  obtain ⟨s₄, hx₄, hready₄, hquiet₄, hthreads₄, hcreating₄, hlisted₄⟩ :=
    hready₃.create R hb 4 (show x ∈ s₃.creating by rw [hcreating₃]; simp)
  refine ⟨_, s₄, x, y, (((Run.nil.snoc hy).snoc hx).snoc hy₃).snoc hx₄, rfl, hready₄, ?_, ?_, ?_,
    ?_, ?_, fun c => ?_⟩
  · rw [hlisted₄, hlisted₃, touch, List.erase_of_not_mem (by simpa using hxy)]
  · exact (((hthreads₄.entered.trans hthreads₃.entered).trans hthreads₂.entered).trans
      hthreads₁.entered)
  · exact (((hthreads₄.collecting.trans hthreads₃.collecting).trans hthreads₂.collecting).trans
      hthreads₁.collecting)
  · exact (((hthreads₄.counters.trans hthreads₃.counters).trans hthreads₂.counters).trans
      hthreads₁.counters)
  · have h₂ := hquiet₂.log y (by rw [hcreating₁]; simp) hlog₁
    have h₃ := hquiet₃.log y (by rw [hcreating]; simp) h₂
    exact hquiet₄.log y (by rw [hlisted₃]; simp) h₃
  · rw [hquiet₄.task, hquiet₃.task, hquiet₂.task, hquiet₁.task]
    rfl

/-- What the sample reads. -/
def readCall : Call := .pread (fun _ => 0) 10 0

/-- A read of `x` waits while the collector has taken `y`. -/
structure Busy (s : System) (x y : Nat) : Prop where
  ready : Supplied (2 ^ 20) 26 s
  listed : s.listed = [y, x]
  entered : s.entered = [(x, readCall)]
  collecting : s.collecting = some y
  counters : s.counters = ⟨0, 0⟩
  log : EmptyLog s.state.mem y
  task : ∀ c, gcTaskThread s.state.mem c = gcTaskThread freshState.mem c

/-- The file `x` is to be read, and the collector takes `y`. -/
theorem busy_run (R : RadixTree) : ∃ (before : List (System × SysCall)) (u s : System) (x y : Nat),
    Run (SysStep (2 ^ 20) volumeAllocator R) (start freshState) before u ∧
      SysStep (2 ^ 20) volumeAllocator R u (.wake (some y)) s ∧
      (before.map Prod.snd = [.alloc y, .alloc x, .create (.atfscreat 3 offsetNull y),
        .create (.atfscreat 4 offsetNull x), .enter x readCall] ∧ u.listed = [x, y] ∧ x ≠ y) ∧
      (∀ p ∈ before ++ [(u, .wake (some y))], ¬ p.2.Reinserts) ∧ Busy s x y := by
  have hb := mapping_freshState
  obtain ⟨steps, s₄, x, y, run, hsteps, h⟩ := created_run R
  have hxy : x ≠ y := by
    have hnodup := (List.nodup_append'.1 h.ready.sound.nodup).2.1
    rw [h.listed] at hnodup
    rintro rfl
    exact (List.nodup_cons.1 hnodup).1 List.mem_cons_self
  -- a call reads `x`
  obtain ⟨s₅, hx₅, hready₅, hquiet₅, hlisted₅, hentered₅, hcollecting₅, hcounters₅⟩ :=
    h.ready.enter (e := readCall) R hb
    (c := .atfspread x) rfl (by rw [h.listed]; simp)
  have hlisted₅ : s₅.listed = [x, y] := by
    rw [hlisted₅, h.listed, touch, List.erase_cons_head]
  have htask₅ : (gcTaskThread s₅.state.mem s₅.counters).2 = true := by
    rw [hquiet₅.task, h.task, hcounters₅, h.counters]
    exact gcTaskThread_freshState (by decide)
  obtain ⟨s₆, hy₆, hready₆, hquiet₆, -, hlisted₆, hentered₆, hcollecting₆, hcounters₆⟩ :=
    hready₅.wake R hb (hcollecting₅.trans h.collecting) htask₅
  rw [hlisted₅] at hy₆ hlisted₆ hcollecting₆
  have hlog₆ : EmptyLog s₆.state.mem y :=
    hquiet₆.log y (by rw [hlisted₅]; simp) (hquiet₅.log y (by rw [h.listed]; simp) h.log)
  have hlisted₆ : s₆.listed = [y, x] := by
    rw [hlisted₆, ListCall.recency]
    change touch [x, y] y = _
    rw [touch, List.erase_cons_tail (by simpa using hxy), List.erase_cons_head]
  rw [hentered₅, h.entered] at hentered₆
  have hbefore : (steps ++ [(s₄, SysCall.enter x readCall)]).map Prod.snd = [.alloc y, .alloc x,
      .create (.atfscreat 3 offsetNull y), .create (.atfscreat 4 offsetNull x),
      .enter x readCall] := by
    rw [List.map_append, hsteps]
    rfl
  refine ⟨_, s₅, s₆, x, y, run.snoc hx₅, hy₆, ⟨hbefore, hlisted₅, hxy⟩, plain_of_map ?_, hready₆,
    hlisted₆, hentered₆, hcollecting₆, hcounters₆, hlog₆, fun c => ?_⟩
  · simp only [List.map_append, hsteps]
    simp [SysCall.Reinserts, ListCall.Reinserts]
  · rw [hquiet₆.task, hquiet₅.task, h.task]

/-- The file `x` is read, the collector takes `y`; then `y` is read and the collector takes `x`. -/
theorem picked_run (R : RadixTree) : ∃ (before mid : List (System × SysCall)) (u w s :
      System) (x y : Nat) (a : Answer),
    Run (SysStep (2 ^ 20) volumeAllocator R) (start freshState) before u ∧
      Run (SysStep (2 ^ 20) volumeAllocator R) u
      ((u, .wake (some y)) :: (mid ++ [(w, .wake (some x))])) s ∧
      before.map Prod.snd = [.alloc y, .alloc x, .create (.atfscreat 3 offsetNull y),
        .create (.atfscreat 4 offsetNull x), .enter x readCall] ∧
      mid.map Prod.snd = [.run x readCall a, .collect y, .enter y readCall] ∧
      u.listed = [x, y] ∧ x ≠ y ∧
      ∀ p ∈ before ++ ((u, .wake (some y)) :: (mid ++ [(w, .wake (some x))])), ¬ p.2.Reinserts := by
  have hb := mapping_freshState
  obtain ⟨before, s₅, s₆, x, y, run, hy₆, ⟨hbefore, hlisted₅, hxy⟩, -, h⟩ := busy_run R
  -- the call runs and `y` is collected
  obtain ⟨ret, out, hx₇, hsound₇⟩ := h.ready.sound.reads R volumeAllocator_tablesApart hb
    h.entered (by decide)
  obtain ⟨hy₈, hready₈⟩ := Supplied.collect R hb ⟨hsound₇, h.ready.spare⟩ h.collecting h.log
  generalize hs₇ : ({ s₆ with entered := [] } : System) = s₇ at hx₇ hy₈ hready₈
  obtain ⟨s₉, hy₉, hready₉, hquiet₉, hlisted₉, -, hcollecting₉, hcounters₉⟩ :=
    hready₈.enter (e := readCall) R hb
    (c := .atfspread y) rfl (by rw [← hs₇, h.listed]; simp)
  have hlisted₉ : s₉.listed = [y, x] := by
    rw [hlisted₉, ← hs₇, h.listed, touch, List.erase_cons_head]
  have htask₉ : (gcTaskThread s₉.state.mem s₉.counters).2 = true := by
    rw [hquiet₉.task, hcounters₉, ← hs₇, h.task, h.counters]
    exact gcTaskThread_freshState (by decide)
  obtain ⟨s, hx, -⟩ := hready₉.wake R hb hcollecting₉ htask₉
  rw [hlisted₉] at hx
  refine ⟨before, [(s₆, _), (s₇, _), (_, _)], s₅, s₉, s, x, y, _, run,
    ((((Run.nil.snoc hy₆).snoc hx₇).snoc hy₈).snoc hy₉).snoc hx, hbefore, rfl, hlisted₅, hxy,
    plain_of_map ?_⟩
  simp only [List.map_append, List.map_cons, List.map_nil, hbefore]
  simp [SysCall.Reinserts, ListCall.Reinserts]

end Sample

end System

end Atfs
