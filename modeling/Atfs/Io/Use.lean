import Atfs.Inode.Lifecycle
import Atfs.Io.Calls

/-!
# Calls as uses of a file

The life of an inode speaks of the use of a file by what it may write. Every call on a file is such
a use.
-/

namespace Atfs

open ByteMemory LinkedChain

/-! ## An allocator that keeps the tables -/

/-- The pages `F`, and the inode tables as `m₀` has them. -/
def TablesRep (A : PageAllocator) (m₀ : Memory) (m : Memory) (F : Set Nat) : Prop :=
  A.Rep m F ∧ Set.EqOn m m₀ tableBytes

namespace TablesRep

variable {A : PageAllocator} {m₀ m m' : Memory} {F : Set Nat} {cpu cpu' n node p : Nat}
  {l : List Nat}

theorem page (h : TablesRep A m₀ m F) : ∀ q ∈ F, IsPage q := A.rep_page h.1

theorem congr (h : TablesRep A m₀ m F) (heq : Set.EqOn m' m (metadata ∪ bytesOf F)) :
    TablesRep A m₀ m' F := by
  refine ⟨A.rep_congr h.1 heq, fun a ha => (heq (.inl ?_)).trans (h.2 ha)⟩
  rw [tableBytes, Set.mem_Ico] at ha
  rw [mem_metadata]
  omega

theorem alloc (hA : KeepsTables A) (h : TablesRep A m₀ m F) (hn : 1 ≤ n)
    (halloc : A.alloc m cpu n = some (node, m', cpu')) :
    ∃ p l F', node = p + 4096 ∧ PageChain m' p l ∧ l.length = n ∧ (∀ q ∈ l, q ∈ F) ∧
      TablesRep A m₀ m' F' ∧ (∀ q ∈ F', q ∈ F ∧ q ∉ l) ∧ ChangesOnly (allocatorBytes F) m m' := by
  obtain ⟨p, l, F', hnode, hchain, hlen, hfresh, hrep, hrest, hframe⟩ := A.alloc_spec h.1 hn halloc
  exact ⟨p, l, F', hnode, hchain, hlen, hfresh, ⟨hrep, (hA.alloc h.1 hn halloc).trans h.2⟩, hrest,
    hframe⟩

/-- A release that does nothing loses the pages. -/
theorem free (h : TablesRep A m₀ m F) :
    ∃ F', TablesRep A m₀ m F' ∧ (∀ q ∈ F', q ∈ F ∨ q ∈ l) ∧
      ChangesOnly (allocatorBytes (F ∪ {q | q ∈ l})) m m :=
  ⟨F, h, fun _ hq => .inl hq, ChangesOnly.refl _ _⟩

end TablesRep

/-- The allocator, which holds its pages as long as the inode tables are those of `m₀`. It is asked
for pages only. -/
def PageAllocator.withTables (A : PageAllocator) (hA : KeepsTables A) (m₀ : Memory) :
    PageAllocator where
  alloc := A.alloc
  free := fun m cpu _ _ => (m, cpu)
  Rep := TablesRep A m₀
  rep_page := TablesRep.page
  rep_congr := TablesRep.congr
  alloc_spec := TablesRep.alloc hA
  free_spec := fun h _ _ _ => TablesRep.free h

section Calls

variable {A : PageAllocator} {R : RadixTree} {f : Frontier} {s t : State} {x : Nat}
  {inodes U : Set Nat}
  {c : Call}

variable (hA : KeepsTables A)

theorem writeLoop_withTables (m₀ : Memory) (inode : Nat) (buf : Memory) (fuel : Nat) (v : WriteVars)
    (s : State) :
    writeLoop (A.withTables hA m₀) inode buf fuel v s = writeLoop A inode buf fuel v s := by
  induction fuel generalizing v s with
  | zero => rfl
  | succ fuel ih =>
    rw [writeLoop, writeLoop, show writeChunk (A.withTables hA m₀) = writeChunk A from rfl]
    simp only [ih]

theorem nvmioWrite_withTables (m₀ : Memory) (s : State) (inode : Nat) (buf : Memory)
    (cnt fileOff : Nat) :
    nvmioWrite (A.withTables hA m₀) R s inode buf cnt fileOff =
      nvmioWrite A R s inode buf cnt fileOff := by
  rw [nvmioWrite, nvmioWrite, writeLoop_withTables]

theorem runCall_withTables (m₀ : Memory) (inode : Nat) (s : State) (c : Call) :
    runCall (A.withTables hA m₀) R inode s c = runCall A R inode s c := by
  cases c with
  | write buf cnt => rw [runCall, runCall, atfswrite, atfswrite, nvmioWrite_withTables]
  | pwrite buf cnt offset => rw [runCall, runCall, atfspwrite, atfspwrite, nvmioWrite_withTables]
  | read => rfl
  | pread => rfl
  | lseek => rfl

theorem Ready.withTables (h : Ready A f s x) : Ready (A.withTables hA s.mem) f s x where
  holds := { h.holds with rep := ⟨h.holds.rep, Set.eqOn_refl _ _⟩ }
  tail := h.tail
  inodePage := h.inodePage
  mapped := h.mapped

/-- A step of the log of `x`, and setting its size and its position, is a use of the file. -/
theorem Ready.use_of_step {f' : Frontier} {ts : List Nat} {m : Memory}
    (hfun : ∀ {m F F'}, A.Rep m F → A.Rep m F' → F = F')
    (h : Ready (A.withTables hA s.mem) f s x) (h' : Ready (A.withTables hA s.mem) f' t x)
    (hpage : f.page ∈ U) (hhead : AtfsInode.logHead.get s.mem x ∈ U) (hdisj : Disjoint f.free U)
    (hstep : LogStep (A.withTables hA s.mem) (AtfsInode.logTail.bytes x) f f' ts s.mem m)
    (hm : ChangesOnly (infoBytes x) m t.mem) (hindex : ∀ i, i ≠ x → t.index i = s.index i) :
    Use A x inodes U (U ∪ f.free \ f'.free) s t := by
  refine ⟨fun F hF => ?_, fun F hF p hp hpF hpU a ha hax => ?_, h'.holds.rep.2, .inl ?_,
    fun i _ hi => hindex i hi⟩
  · obtain rfl := hfun hF h.holds.rep.1
    refine ⟨f'.free, h'.holds.rep.1, ?_, ?_⟩
    · rintro q (hq | hq | hq)
      · exact .inl (hstep.sub hq)
      · exact .inr hq
      · exact .inl hq.1
    · rw [Set.disjoint_union_right]
      exact ⟨hdisj.mono_left hstep.sub, Set.disjoint_sdiff_right⟩
  · obtain rfl := hfun hF h.holds.rep.1
    have hout : a ∉ infoBytes x ∧ a ∉ AtfsInode.logTail.bytes x :=
      ⟨fun hc => hax (infoBytes_subset (.inl hc)), fun hc => hax (infoBytes_subset (.inr hc))⟩
    rw [hm a hout.1]
    exact hstep.keeps h.holds hp hpF (fun hc => hpU (hc ▸ hpage)) ha hout.2
  · obtain ⟨p, hp, hpF, hpT, hle, hle'⟩ := h.inodePage
    rw [show sizeofAtfsInode = 216 from rfl] at hle'
    have hkeep : AtfsInode.logHead.get m x = AtfsInode.logHead.get s.mem x := by
      refine Field.get_congr fun a ha => ?_
      simp only [Field.bytes, AtfsInode.logHead_off, AtfsInode.logHead_size, Set.mem_Ico] at ha
      refine hstep.keeps h.holds hp hpF hpT (by rw [mem_pageBytes]; omega) ?_
      simp only [Field.bytes, AtfsInode.logTail_off, AtfsInode.logTail_size, Set.mem_Ico]
      omega
    rwa [field_info hm (by decide), hkeep]

variable (inodes) in
include hA in
/-- Every call on a file whose log ends in one of its pages is a use of the file. -/
theorem Ready.use (hfun : ∀ {m F F'}, A.Rep m F → A.Rep m F' → F = F') (h : Ready A f s x)
    (hpage : f.page ∈ U) (hhead : AtfsInode.logHead.get s.mem x ∈ U) (hdisj : Disjoint f.free U)
    (hfit : (viewOf s.mem x).Fits c) (hrun : Atfs.runCall A R x s c = .ok t) :
    ∃ U', Use A x inodes U U' s t := by
  have hr := h.withTables hA
  rw [← runCall_withTables hA s.mem] at hrun
  have hwrite {cnt fileOff : Nat} {f' : Frontier} {es : List LogEntry} {s₁ : State} {m : Memory}
      (ha : Appended (A.withTables hA s.mem) x cnt fileOff f f' s s₁ es)
      (hm : ChangesOnly (infoBytes x) s₁.mem m) :
      ∃ U', Use A x inodes U U' s { s₁ with mem := m } := by
    obtain ⟨ts, hstep⟩ := ha.frame
    exact ⟨_, hr.use_of_step hA hfun ((hr.append ha).info hm) hpage hhead hdisj hstep hm ha.other⟩
  have hread {m : Memory} (hm : ChangesOnly (infoBytes x) s.mem m) :
      ∃ U', Use A x inodes U U' s { s with mem := m } :=
    ⟨_, hr.use_of_step hA hfun (hr.info hm) hpage hhead hdisj (.refl hr.holds _) hm fun _ _ => rfl⟩
  cases c with
  | write buf cnt =>
    rw [Atfs.runCall, Atfs.atfswrite] at hrun
    obtain ⟨⟨ret, t₁⟩, hrun, ht⟩ := bind_eq_ok.1 hrun
    obtain ⟨⟨ret', s₁⟩, hwr, hrun⟩ := bind_eq_ok.1 hrun
    simp only [Except.ok.injEq, Prod.mk.injEq] at hrun ht
    obtain ⟨-, rfl⟩ := hrun
    obtain rfl := ht
    obtain ⟨-, f', es, ha⟩ := hr.appended hfit hwr
    have hpos := ha.inodeField hr AtfsInode.fileOff (by decide)
    exact hwrite ha (updateInodeInfo_view
      (show AtfsInode.fileOff.get s₁.mem x + cnt < 2 ^ 64 from hpos ▸ hfit)).1
  | pwrite buf cnt offset =>
    rw [Atfs.runCall, Atfs.atfspwrite] at hrun
    obtain ⟨⟨ret, t₁⟩, hrun, ht⟩ := bind_eq_ok.1 hrun
    obtain ⟨⟨ret', s₁⟩, hwr, hrun⟩ := bind_eq_ok.1 hrun
    simp only [Except.ok.injEq, Prod.mk.injEq] at hrun ht
    obtain ⟨-, rfl⟩ := hrun
    obtain rfl := ht
    obtain ⟨-, f', es, ha⟩ := hr.appended hfit hwr
    exact hwrite ha (updateInodeSize_spec s₁.mem x cnt).1
  | read buf cnt =>
    rw [Atfs.runCall, Atfs.atfsread] at hrun
    obtain ⟨⟨ret, rbuf, t₁⟩, hrun, ht⟩ := bind_eq_ok.1 hrun
    obtain ⟨⟨ret', rbuf'⟩, -, hrun⟩ := bind_eq_ok.1 hrun
    simp only [Except.ok.injEq, Prod.mk.injEq] at hrun ht
    obtain ⟨-, -, rfl⟩ := hrun
    obtain rfl := ht
    exact hread (updateInodeOffset_spec hfit).1
  | pread buf cnt offset =>
    rw [Atfs.runCall, Atfs.atfspread] at hrun
    obtain ⟨⟨ret, rbuf, t₁⟩, hrun, ht⟩ := bind_eq_ok.1 hrun
    obtain ⟨⟨ret', rbuf'⟩, -, hrun⟩ := bind_eq_ok.1 hrun
    simp only [Except.ok.injEq, Prod.mk.injEq] at hrun ht
    obtain ⟨-, -, rfl⟩ := hrun
    obtain rfl := ht
    exact hread (ChangesOnly.refl _ _)
  | lseek offset whence =>
    obtain rfl : (atfslseek s x offset whence).2 = t := by simpa [Atfs.runCall] using hrun
    obtain ⟨m', hseek, hinfo, -⟩ := atfslseek_view s x hfit
    rw [hseek]
    exact hread hinfo

end Calls

end Atfs
