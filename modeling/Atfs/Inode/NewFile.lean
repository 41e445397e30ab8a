import Atfs.Inode.Lifecycle
import Atfs.Inode.Supply
import Atfs.Io.Supply
import Atfs.Io.Use

/-!
# New files

An inode that is handed out is an empty file if the files freed before were, and the slots of the
pages that the tables were refilled from. What a file is used for has no part in it.
-/

namespace Atfs

open ByteMemory LinkedChain LabelledRun

section NewFile

variable {A : PageAllocator} {F : Set Nat} {tables : Nat → List Nat} {s t : FilePool} {x : Nat}

/-- In a run that frees empty files only and refills from pages without trees, an inode that is
handed out is an empty file. -/
theorem allocAtfsInode_newFile {s₀ : FilePool} {steps : List (FilePool × FileEvent)}
    (hA : KeepsTables A) (h : s₀.Sound A F tables) (run : Run (FileStep A) s₀ steps s)
    (hsteps : ∀ p ∈ steps, p.1.Clean A p.2) (hclean : s.Clean A (.alloc x))
    (hstep : FileStep A s (.alloc x) t) : t.NewFile x := by
  obtain ⟨F', tables', hs⟩ := h.run hA run hsteps
  cases hstep with
  | alloc halloc =>
    obtain ⟨-, -, -, hnew⟩ := hs.alloc hA hclean halloc
    exact hnew

end NewFile

/-! ## Steps that can be taken -/

namespace FilePool.Sound

variable {A : PageAllocator} {F : Set Nat} {tables : Nat → List Nat} {s : FilePool} {n x : Nat}

/-- With 19 pages to spare there is an inode, and all trees stay. -/
theorem allocAtfsInode (h : s.Sound A F tables) (hA : A.Follows) (hkeep : KeepsTables A)
    (hstock : Stocked A s.state.mem F (n + 18 + 1)) : ∃ x t F',
    Atfs.allocAtfsInode A s.state = .ok (x, t) ∧ Stocked A t.mem F' n ∧
      t.index = s.state.index := by
  have hi := getCpuid_lt s.state.currentCpu
  rcases hcpu : getCpuid s.state.currentCpu with ⟨i, currentCpu⟩
  rw [hcpu] at hi
  simp only [Atfs.allocAtfsInode, hcpu]
  have hindex {u t : State} {x : Nat} (hpop : popAtfsInode u (getAtfsInodeTableAddr i) = (x, t)) :
      t.index = u.index :=
    (congrArg (fun r => r.2.index) hpop).symm
  by_cases hzero : AllocatorList.count.get s.state.mem (getAtfsInodeTableAddr i) = 0
  · obtain ⟨u, F₁, -, hfill, hstock₁, -⟩ :=
      Stocked.fillAtfsInodeList (s := { s.state with currentCpu }) hstock hA hkeep hi
    obtain ⟨F₂, p, hF₂, -, hpF, hpF', hholds, -, -, -, hu, -⟩ :=
      fillAtfsInodeList_spec (s := { s.state with currentCpu }) hkeep hi h.rep hfill
    obtain rfl := hA.rep_unique hstock₁.rep hF₂
    have hp : IsPage p := A.rep_page h.rep p hpF
    have hchain := hholds.chain
    rw [pageInodes_succ] at hchain
    have hin : InodeIn (p + 216 * 17) p :=
      InodesApart.pageInodes_in hp (mem_pageInodes.2 ⟨17, by decide, rfl⟩)
    obtain ⟨t, hpop, hstock₂, -⟩ :=
      hstock₁.popAtfsInode hA hi hin hpF' hchain.head_eq hholds.count
    rw [if_pos hzero]
    exact ⟨_, t, F₁, bind_eq_ok.2 ⟨u, hfill, congrArg Except.ok hpop⟩, hstock₂,
      (hindex hpop).trans hu⟩
  · obtain ⟨c, hcount⟩ := Nat.exists_eq_succ_of_ne_zero hzero
    have hne : tables i ≠ [] := fun hnil => by
      have hle := h.count i hi
      rw [hcount, hnil] at hle
      exact absurd hle (Nat.not_succ_le_zero c)
    obtain ⟨x, rest, hx⟩ := List.exists_cons_of_ne_nil hne
    have hchain := h.chain i hi
    rw [hx] at hchain
    obtain ⟨p, hin, hpF⟩ := h.owned.apart.placed x (mem_table hi (hx ▸ List.mem_cons_self))
    obtain ⟨t, hpop, hstock₂, -⟩ := Stocked.popAtfsInode (s := { s.state with currentCpu })
      (hstock.mono (k := n) (by omega)) hA hi hin hpF hchain.head_eq hcount
    rw [if_neg hzero]
    exact ⟨x, t, F, congrArg Except.ok hpop, hstock₂,
      hindex (u := { s.state with currentCpu }) hpop⟩

/-- If no slot but those of inodes in use has a tree, neither has one of a page that is free. -/
theorem clean_alloc (h : s.Sound A F tables)
    (hnone : ∀ y, y ∉ s.inUse → s.state.index y = fun _ => offsetNull) : s.Clean A (.alloc x) := by
  intro _ node t halloc y hy
  obtain ⟨p, l, F', rfl, hlen, hall⟩ := PageAllocator.allocFreePages_spec
    (s := { s.state with currentCpu := (getCpuid s.state.currentCpu).2 }) h.rep (by decide) halloc
  obtain ⟨q, rfl⟩ : ∃ q, l = [q] := List.length_eq_one_iff.1 hlen
  obtain rfl : p = q := hall.chain.chain.head_eq
  rw [hall.chain.offset p (by simp)] at hy
  have hin := InodesApart.pageInodes_in (hall.chain.page p (by simp)) hy
  exact hnone y fun hc => h.owned.placed (List.mem_append_right _ hc) hin (hall.fresh p (by simp))

/-- A file in use that is empty takes calls. -/
theorem ready (h : s.Sound A F tables) (hx : x ∈ s.inUse) (hempty : EmptyFile s.state x) :
    Ready A ⟨F, AtfsInode.logHead.get s.state.mem x, AtfsInode.logHead.get s.state.mem x⟩
      s.state x where
  holds := by
    obtain ⟨hpage, hfree⟩ := h.owned.page x (List.mem_append_right _ hx) _
      (h.owned.log x (List.mem_append_right _ hx))
    exact ⟨h.rep, hpage, hfree, le_rfl, Nat.le_add_right _ _⟩
  tail := hempty.inode.logTail
  inodePage := by
    have hxall : x ∈ allInodes tables ++ s.inUse := List.mem_append_right _ hx
    obtain ⟨p, hin, hpF⟩ := h.owned.apart.placed x hxall
    refine ⟨p, hin.1, hpF, ?_, hin.2⟩
    rintro rfl
    exact h.owned.inodePage x hxall _ hin x hxall (h.owned.log x hxall)
  mapped := fun k hk => absurd (congrFun hempty.index k) hk

end FilePool.Sound

/-- As long as there are pages a file takes what is written to it. -/
theorem Ready.pwrite {A : PageAllocator} {f : Frontier} {s : State} {x cnt offset n : Nat}
    (h : Ready A f s x) (buf : Memory) (hpos : 1 ≤ cnt) (hb : offset + cnt < 2 ^ 64)
    (hlast : A.Lasts (n + roundPages (writeVars s.mem x cnt offset).pageNums) s.mem) :
    ∃ t F', Atfs.runCall A radixTree x s (.pwrite buf cnt offset) = .ok t ∧ A.Lasts n t.mem ∧
      A.Rep t.mem F' ∧ ∀ i, i ≠ x → t.index i = s.index i := by
  obtain ⟨p, hp, hpF, -, hle, hle'⟩ := h.inodePage
  obtain ⟨v', s₁, f', hloop, hlast₁, hf', hsub⟩ := writeLoop_lasts x buf h.holds h.tail
    (writeVars_sized s.mem x hpos (by omega) (by omega)) (AtfsInode.iSize.get_lt _ _)
    (Nat.lt_succ_self _) hlast
  obtain ⟨t, ht⟩ : ∃ t, radixTree.updateRadixtree
      { s₁ with mem := updateInodeTail s₁.mem x v'.logTail } x (AtfsInode.logTail.get s₁.mem x) =
        t := ⟨_, rfl⟩
  have hwrite : nvmioWrite A radixTree s x buf cnt offset = .ok (cnt, t) :=
    bind_eq_ok.2 ⟨_, hloop, congrArg (fun t => Except.ok (cnt, t)) ht⟩
  obtain ⟨-, f₂, es, happ⟩ := h.appended hb hwrite
  -- what is set behind the rounds lies in the inode
  have htail : ChangesOnly (inodeBytes x) s₁.mem t.mem := by
    rw [← ht, radixTree_mem]
    exact AtfsInode.changesOnly _ _ _ _
  have hsize := (updateInodeSize_spec t.mem x cnt).1.mono
    (Set.subset_union_left.trans infoBytes_subset)
  have heq := (htail.trans hsize).eqOn
    (InodeIn.apart ⟨hp, hle, hle'⟩ (A.rep_page hf'.rep) fun hc => hpF (hsub hc))
  refine ⟨{ t with mem := updateInodeSize t.mem x cnt }, f'.free, ?_, hlast₁.congr hf'.rep heq,
    A.rep_congr hf'.rep heq, happ.other⟩
  rw [Atfs.runCall, Atfs.atfspwrite, hwrite]
  rfl

namespace FilePool.Sound

variable {A : PageAllocator} {F : Set Nat} {tables : Nat → List Nat} {s : FilePool} {n x : Nat}

/-- As long as no slot has a tree and there are pages, new files can be made. -/
theorem make (h : s.Sound A F tables) (hA : A.Follows) (hkeep : KeepsTables A)
    (hstock : Stocked A s.state.mem F (n + 18 + 1))
    (hnone : ∀ y, s.state.index y = fun _ => offsetNull) : ∃ x t F' tables',
    FileStep A s (.alloc x) t ∧ s.Clean A (.alloc x) ∧ t.Sound A F' tables' ∧
      Stocked A t.state.mem F' n ∧ t.state.index = s.state.index ∧ x ∈ t.inUse ∧ t.NewFile x := by
  obtain ⟨x, t, F₁, halloc, hstock₁, hindex⟩ := h.allocAtfsInode hA hkeep hstock
  have hclean : s.Clean A (.alloc x) := h.clean_alloc fun y _ => hnone y
  obtain ⟨F₂, tables', ht, hnew⟩ := h.alloc hkeep hclean halloc
  obtain rfl := hA.rep_unique hstock₁.rep ht.rep
  exact ⟨x, _, F₁, tables', .alloc halloc, hclean, ht, hstock₁, hindex, List.mem_cons_self, hnew⟩

/-- An empty file can go back. -/
theorem giveBack (h : s.Sound A F tables) (hA : A.Follows) (hstock : Stocked A s.state.mem F n)
    (hx : x ∈ s.inUse) (hempty : EmptyFile s.state x) : ∃ t tables', FileStep A s (.free x) t ∧
      t.Sound A F tables' ∧ Stocked A t.state.mem F n ∧ t.state.index = s.state.index := by
  obtain ⟨tables', ht⟩ := h.free hx hempty
  exact ⟨_, tables', .free hx, ht,
    ⟨ht.rep, hstock.roomy.congr (hA.rep ▸ h.rep) (h.free_eqOn hx)⟩, rfl⟩

/-- Ten bytes are written to a new file. -/
theorem fill (h : s.Sound A F tables) (hA : A.Follows) (hkeep : KeepsTables A) (hx : x ∈ s.inUse)
    (hnew : s.NewFile x) (hlast : A.Lasts (n + 2) s.state.mem) : ∃ t F', FileStep A s (.use x) t ∧
      t.Sound A F' tables ∧ A.Lasts n t.state.mem ∧ t.inUse = s.inUse ∧
      ∀ y, y ≠ x → t.state.index y = s.state.index y := by
  have hready := h.ready hx hnew.empty
  have hpages : (writeVars s.state.mem x 10 0).pageNums = 1 :=
    writeVars_pageNums s.state.mem x (by decide) (by decide)
  obtain ⟨t, F₁, hrun, hlast₁, hrep, hindex⟩ :=
    hready.pwrite (n := n) UInt8.ofNat (show 1 ≤ 10 by decide) (show 0 + 10 < 2 ^ 64 by decide)
      (by rwa [hpages])
  have howned : s.used x = {AtfsInode.logHead.get s.state.mem x} :=
    (FilePool.owned_inUse hx).symm.trans hnew.owned
  have hlog : AtfsInode.logHead.get s.state.mem x ∈ s.used x := howned ▸ Set.mem_singleton _
  have hfree : Disjoint F (s.used x) := by
    rw [howned, Set.disjoint_singleton_right]
    exact hready.holds.notFree
  obtain ⟨U, huse⟩ := hready.use s.inodes hkeep (fun h h' => hA.rep_unique h h') hlog
    hlog hfree (c := .pwrite UInt8.ofNat 10 0) (show 0 + 10 < 2 ^ 64 by decide) hrun
  obtain ⟨F', ht⟩ := h.use hx huse
  exact ⟨_, F', .use hx huse, ht, hlast₁, rfl, hindex⟩

end FilePool.Sound

/-! ## One free file -/

section Sample

/-- The first table holds an empty file; the slots of all other pages have the trees `tree`. -/
def freeFile (tree : Nat → Nat → Nat) (currentCpu : Nat) : FilePool where
  state :=
    { mem := fun a =>
        if 32768 ≤ a ∧ a < 36864 then tableHeader (a - 32768)
        else if fileInode + 80 ≤ a ∧ a < fileInode + 88 then wordByte offsetNull
          (a - (fileInode + 80))
        else (fileState 0 (fun _ _ => 0) fun _ => offsetNull).mem a
      index := fun x => if x = fileInode then fun _ => offsetNull else tree x
      currentCpu
      trace := [] }
  inUse := []
  used := fun _ => ∅

variable {tree : Nat → Nat → Nat} {currentCpu : Nat}

theorem freeFile_mem {a : Nat} (h : a < 32768 ∨ 36864 ≤ a)
    (h' : a < fileInode + 80 ∨ fileInode + 88 ≤ a) :
    (freeFile tree currentCpu).state.mem a =
    (fileState 0 (fun _ _ => 0) fun _ => offsetNull).mem a := by
  rw [freeFile]
  simp only
  rw [if_neg (by omega), if_neg (by omega)]

theorem freeFile_words : Set.EqOn (freeFile tree currentCpu).state.mem
    (fileState 0 (fun _ _ => 0) fun _ => offsetNull).mem (Set.Ico fileInode (fileInode + 80)) := by
  have hb := fileInode_bounds
  intro a ha
  rw [Set.mem_Ico] at ha
  exact freeFile_mem (by omega) (by omega)

variable (tree currentCpu) in
theorem freeFile_logHead :
    AtfsInode.logHead.get (freeFile tree currentCpu).state.mem fileInode = fileLog := by
  have hlt : fileLog < 256 ^ 8 := by
    rw [fileLog, pageOff_eq]
    norm_num
  rw [logHead_congr freeFile_words]
  refine (load_eq_of_bytes fun j hj => ?_).trans (Nat.mod_eq_of_lt hlt)
  simp only [AtfsInode.logHead_off, AtfsInode.logHead_size] at hj ⊢
  rw [fileInode, Nat.add_assoc, fileState_body (by omega), fileBody, if_pos rfl, if_neg (by omega),
    if_pos (by omega), Nat.add_sub_cancel_left, wordByte]

variable (tree currentCpu) in
theorem freeFile_next : inodeNext (freeFile tree currentCpu).state.mem fileInode = offsetNull := by
  have hb := fileInode_bounds
  rw [inodeNext_eq (by omega)]
  refine (load_eq_of_bytes (v := offsetNull) fun j hj => ?_).trans (by decide)
  rw [AtfsInode.next_size] at hj
  rw [AtfsInode.next_off, freeFile]
  simp only
  rw [if_neg (by omega), if_pos (by omega), Nat.add_sub_cancel_left, wordByte]

variable (tree currentCpu) in
theorem freeFile_header {i : Nat} (hi : i < gCpuNums) :
    AllocatorList.head.get (freeFile tree currentCpu).state.mem (getAtfsInodeTableAddr i) =
        (if i = 0 then fileInode else offsetNull) ∧
      AllocatorList.count.get (freeFile tree currentCpu).state.mem (getAtfsInodeTableAddr i) =
        (if i = 0 then 1 else 0) := by
  refine tableHeader_get hi fun o ho => ?_
  rw [freeFile]
  simp only
  rw [if_pos (by omega), Nat.add_sub_cancel_left]

variable (tree currentCpu) in
theorem freeFile_index {x : Nat} (hx : x ≠ fileInode) :
    (freeFile tree currentCpu).state.index x = tree x := if_neg hx

variable (tree currentCpu) in
theorem freeFile_empty : EmptyFile (freeFile tree currentCpu).state fileInode where
  inode :=
    { iSize := (fileWord_congr freeFile_words _ (by decide)).trans (fileState_iSize (by decide))
      fileOff := (fileWord_congr freeFile_words _ (by decide)).trans fileState_fileOff
      logTail := by
        rw [fileWord_congr freeFile_words _ (by decide), fileState_logTail,
          freeFile_logHead tree currentCpu] }
  index := if_pos rfl

theorem fileLog_ne_fileInode : fileLog ≠ fileInode := fun h => by
  have := pageOff_injective h
  omega

theorem freeFile_wellFormed :
    WellFormed (freeFile tree currentCpu).state.mem (freeLists 0 64) := by
  have hwf : WellFormed (fileState 0 (fun _ _ => 0) fun _ => offsetNull).mem (freeLists 0 64) :=
    fileState_wellFormed
  have hb := fileInode_bounds
  have hin : IsPage fileInode := isPage_pageOff (by omega)
  refine hwf.congr fun a ha => ?_
  rcases ha with ha | ⟨q, ⟨i, hi, hq⟩, ha⟩
  · rw [pageListBytes, Set.mem_Ico] at ha
    exact freeFile_mem (by omega) (by omega)
  · have hqpage := (hwf.page i hi q hq).1
    have := hqpage.bounds
    have := hqpage.apart hin (by rintro rfl; exact fileInode_not_free ⟨i, hi, hq⟩)
    rw [mem_pageBytes] at ha
    exact freeFile_mem (by omega) (by omega)

variable (tree currentCpu) in
theorem freeFile_sound {A : PageAllocator}
    (hrep : A.Rep (freeFile tree currentCpu).state.mem (freeOf (freeLists 0 64))) :
    (freeFile tree currentCpu).Sound A (freeOf (freeLists 0 64)) oneInodeTables := by
  have hb := fileInode_bounds
  have hall : allInodes oneInodeTables ++ (freeFile tree currentCpu).inUse = [fileInode] := by
    rw [allInodes_oneInode]
    rfl
  have hlog := freeFile_logHead tree currentCpu
  have hin : InodeIn fileInode fileInode := fileInode_in (k := 0) (by omega)
  have hfree : fileLog ∉ freeOf (freeLists 0 64) := pageOff_not_free (k := 4097) (by omega)
  have howned : (freeFile tree currentCpu).owned fileInode = {fileLog} := by
    rw [FilePool.owned_free (by simp [freeFile]), hlog]
  have hchain {i : Nat} (hi : i < gCpuNums) :
    Segment (inodeNext (freeFile tree currentCpu).state.mem)
      (AllocatorList.head.get (freeFile tree currentCpu).state.mem (getAtfsInodeTableAddr i))
      (oneInodeTables i) offsetNull := by
    have hhead := (freeFile_header tree currentCpu hi).1
    have hnext := freeFile_next tree currentCpu
    generalize (freeFile tree currentCpu).state.mem = m at hhead hnext ⊢
    rw [hhead, oneInodeTables]
    split_ifs with h
    · exact ⟨rfl, hnext⟩
    · exact segment_nil.2 rfl
  refine ⟨hrep, fun i hi => hchain hi, fun i hi => ?_,
    fun x hx => ?_, ?_⟩
  · rw [(freeFile_header tree currentCpu hi).2, oneInodeTables]
    split_ifs <;> simp
  · rw [allInodes_oneInode, List.mem_singleton] at hx
    exact hx ▸ freeFile_empty tree currentCpu
  · rw [hall]
    refine ⟨⟨List.nodup_singleton _, fun x hx => ?_, fun x hx y hy hxy => ?_⟩, fun x hx => ?_,
      fun x hx p hp => ?_, fun x hx y hy hxy => ?_, fun x hx p hp y hy hc => ?_⟩
    · rw [List.mem_singleton] at hx
      exact ⟨fileInode, hx ▸ hin, fileInode_not_free⟩
    · rw [List.mem_singleton] at hx hy
      exact absurd (hx.trans hy.symm) hxy
    · rw [List.mem_singleton] at hx
      rw [hx, howned, hlog]
      exact Set.mem_singleton _
    · rw [List.mem_singleton] at hx
      rw [hx, howned, Set.mem_singleton_iff] at hp
      exact hp ▸ ⟨isPage_pageOff (by omega), hfree⟩
    · rw [List.mem_singleton] at hx hy
      exact absurd (hx.trans hy.symm) hxy
    · rw [List.mem_singleton] at hx hy
      rw [hy, howned, Set.mem_singleton_iff] at hc
      rw [hx] at hp
      exact fileLog_ne_fileInode (hc ▸ hp.page_unique hin)

theorem freeFile_stocked {A : PageAllocator} (hA : A.Follows) :
    Stocked A (freeFile tree currentCpu).state.mem (freeOf (freeLists 0 64)) 64 where
  rep := by
    rw [hA.rep]
    exact ⟨_, freeFile_wellFormed.chains, rfl⟩
  roomy := freeFile_wellFormed.roomy (fun i hi _ => (length_freeLists (by omega)).ge)
    fun i hi _ => .inl ((length_freeLists (by omega)).trans_le (by decide))

/-- An inode is made and freed, another one is written to, and the inode handed out after that is an
empty file. -/
theorem allocAtfsInode_newFile_sample : ∃ (steps : List (FilePool × FileEvent)) (s t : FilePool)
    (x y z : Nat), Run (FileStep tableAllocator) (freeFile (fun _ _ => offsetNull) 1) steps s ∧
      steps.map Prod.snd = [.alloc x, .free x, .alloc y, .use y] ∧
      AllocatorList.count.get (freeFile (fun _ _ => offsetNull) 1).state.mem
        (getAtfsInodeTableAddr 1) = 0 ∧
      FileStep tableAllocator s (.alloc z) t ∧ t.NewFile z := by
  have hA := tableAllocator_follows
  have hkeep := tableAllocator_keepsTables
  have hcount := (freeFile_header (fun _ _ => offsetNull) 1 (show 1 < gCpuNums by decide)).2
  have hstock₀ : Stocked tableAllocator (freeFile (fun _ _ => offsetNull) 1).state.mem
      (freeOf (freeLists 0 64)) (26 + 18 + 1 + 18 + 1) := (freeFile_stocked hA).mono (by decide)
  have hs₀ := freeFile_sound (fun _ _ => offsetNull) 1 hstock₀.rep
  have hnone₀ (y : Nat) : (freeFile (fun _ _ => offsetNull) 1).state.index y =
      fun _ => offsetNull := by
    rw [freeFile]
    simp
  generalize freeFile (fun _ _ => offsetNull) 1 = s₀ at *
  obtain ⟨x, s₁, F₁, tables₁, step₁, hclean₁, hs₁, hstock₁, hindex₁, hx, hnew₁⟩ :=
    hs₀.make hA hkeep hstock₀ hnone₀
  obtain ⟨s₂, tables₂, step₂, hs₂, hstock₂, hindex₂⟩ := hs₁.giveBack hA hstock₁ hx hnew₁.empty
  have hnone₂ (y : Nat) : s₂.state.index y = fun _ => offsetNull := by
    rw [hindex₂, hindex₁, hnone₀]
  obtain ⟨y, s₃, F₃, tables₃, step₃, hclean₃, hs₃, hstock₃, hindex₃, hy, hnew₃⟩ :=
    hs₂.make hA hkeep hstock₂ hnone₂
  obtain ⟨s₄, F₄, step₄, hs₄, hlast₄, hinUse, hindex₄⟩ :=
    hs₃.fill (n := 24) hA hkeep hy hnew₃ (hstock₃.lasts hA)
  have hrun := (((Run.nil.snoc step₁).snoc step₂).snoc step₃).snoc step₄
  obtain ⟨⟨z, t⟩, halloc⟩ := (hlast₄.mono (show 19 ≤ 24 by decide)).allocAtfsInode hkeep hs₄.rep
  -- the tree of the file written to is in use
  have hclean : s₄.Clean tableAllocator (.alloc z) := hs₄.clean_alloc fun u hu => by
    rw [hindex₄ u (by rintro rfl; exact hu (hinUse ▸ hy)), hindex₃, hnone₂]
  refine ⟨_, s₄, _, x, y, z, hrun, rfl, hcount, .alloc halloc,
    allocAtfsInode_newFile hkeep hs₀ hrun ?_ hclean (.alloc halloc)⟩
  simp only [List.nil_append, List.cons_append, List.forall_mem_cons, List.not_mem_nil,
    false_implies, implies_true, and_true]
  exact ⟨hclean₁, hnew₁.empty, hclean₃, trivial⟩

/-- The refill of the second table hands out a slot with the tree that it had. -/
theorem allocAtfsInode_tree :
    (freeFile (fun _ _ => fileLog) 1).Sound tableAllocator (freeOf (freeLists 0 64))
    oneInodeTables ∧
    ∃ x t, FileStep tableAllocator (freeFile (fun _ _ => fileLog) 1) (.alloc x) t ∧
      ¬ t.NewFile x := by
  have hA := tableAllocator_follows
  have hkeep := tableAllocator_keepsTables
  have hstock : Stocked tableAllocator (freeFile (fun _ _ => fileLog) 1).state.mem
      (freeOf (freeLists 0 64)) (45 + 18 + 1) := freeFile_stocked hA
  have hs := freeFile_sound (fun _ _ => fileLog) 1 hstock.rep
  refine ⟨hs, ?_⟩
  obtain ⟨x, t, F', halloc, -, hindex⟩ := hs.allocAtfsInode hA hkeep hstock
  refine ⟨x, _, .alloc halloc, fun hnew => ?_⟩
  -- the inode lies in a page that was free
  have hcpu : getCpuid (freeFile (fun _ _ => fileLog) 1).state.currentCpu = (1, 2) := rfl
  have hcount := (freeFile_header (fun _ _ => fileLog) 1 (show 1 < gCpuNums by decide)).2
  have hx : x ≠ fileInode := by
    obtain ⟨u, hpop, hfill⟩ := allocAtfsInode_ok hcpu halloc
    obtain ⟨-, hfill⟩ := hfill.resolve_right fun hc => hc.1 (hcount.trans (if_neg (by decide)))
    obtain ⟨F₁, p, -, -, hpF, -, hholds, -⟩ := fillAtfsInodeList_spec
      (s := { (freeFile (fun _ _ => fileLog) 1).state with currentCpu := 2 }) hkeep (by decide)
      hstock.rep hfill
    have hchain := hholds.chain
    rw [pageInodes_succ] at hchain
    have hhead : x = p + 216 * 17 := (congrArg Prod.fst hpop).symm.trans hchain.head_eq
    rintro rfl
    have hin := InodesApart.pageInodes_in (tableAllocator.rep_page hstock.rep p hpF)
      (hhead ▸ mem_pageInodes.2 ⟨17, by decide, rfl⟩ : fileInode ∈ pageInodes p 18)
    exact fileInode_not_free (hin.page_unique (fileInode_in (k := 0) (by omega)) ▸ hpF)
  have htree := freeFile_index (fun _ _ => fileLog) 1 hx
  have hempty := congrFun (hnew.empty.index.symm.trans ((congrFun hindex x).trans htree)) 0
  exact (isPage_pageOff (k := 4097) (by omega)).ne_offsetNull hempty.symm

end Sample

end Atfs
