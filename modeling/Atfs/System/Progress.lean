import Atfs.System.Files

/-!
# Progress of the sections

A call that has touched its inode can run on its file whenever its turn comes, and the collector can
collect what it has taken: no loop of theirs is without end. Only pages can run out, and a call can
be one over `2 ^ 64`. The locks themselves and the end of the mapping are not part of it.
-/

namespace Atfs

open ByteMemory LinkedChain LinkedRing LabelledRun

/-! ## Faults -/

section Faults

variable {A : PageAllocator} {R : RadixTree} {s : State} {x n node : Nat} {c : Call} {e : Fault}

theorem initAtfsInode_error (h : initAtfsInode A s x = .error e) : e = .noPages := by
  rw [initAtfsInode] at h
  rcases bind_eq_error.1 h with h | ⟨⟨pages, t⟩, -, h⟩
  · exact PageAllocator.allocFreePages_error h
  · cases h

theorem fillInodes_error (h : fillInodes A node n s = .error e) : e = .noPages := by
  induction n with
  | zero => cases h
  | succ n ih =>
    rw [fillInodes] at h
    rcases bind_eq_error.1 h with h | ⟨⟨t, inodePrev⟩, -, h⟩
    · exact ih h
    · rcases bind_eq_error.1 h with h | ⟨t', -, h⟩
      · exact initAtfsInode_error h
      · cases h

theorem fillAtfsInodeList_error {i : Nat} (h : fillAtfsInodeList A s i = .error e) :
    e = .noPages := by
  rw [fillAtfsInodeList] at h
  rcases bind_eq_error.1 h with h | ⟨⟨pages, t⟩, -, h⟩
  · exact PageAllocator.allocFreePages_error h
  · rcases bind_eq_error.1 h with h | ⟨⟨t', inode⟩, -, h⟩
    · exact fillInodes_error h
    · cases h

/-- `alloc_atfs_inode` fails only when the allocator has no pages left. -/
theorem allocAtfsInode_error (h : allocAtfsInode A s = .error e) : e = .noPages := by
  rcases hcpu : getCpuid s.currentCpu with ⟨cpuid, currentCpu⟩
  simp only [allocAtfsInode, hcpu] at h
  split_ifs at h with hzero
  · rcases bind_eq_error.1 h with h | ⟨t, -, h⟩
    · exact fillAtfsInodeList_error h
    · cases h
  · cases h

/-- The pages that the rounds of a call take at most. -/
def callPages (m : Memory) (x : Nat) : Call → Nat
  | .write _ cnt => roundPages (writeVars m x cnt (AtfsInode.fileOff.get m x)).pageNums
  | .pwrite _ cnt offset => roundPages (writeVars m x cnt offset).pageNums
  | _ => 0

/-- A call returns, or the pages do not last for its rounds. -/
theorem answerCall_cases {r : Nat} {f : Frontier} {L : List LogPage} {last : LogPage}
    (h : LogOf A x r s.mem f L last) (hfit : (viewOf s.mem x).Fits c) :
    (answerCall A R x s c = .error .noPages ∧ ¬ A.Lasts (callPages s.mem x c) s.mem) ∨
      ∃ a t, answerCall A R x s c = .ok (a, t) := by
  cases c with
  | write buf cnt =>
    cases hwrite : nvmioWrite A R s x buf cnt (AtfsInode.fileOff.get s.mem x) with
    | error e =>
      obtain rfl := nvmioWrite_error hwrite
      refine .inl ⟨by rw [answerCall, atfswrite, hwrite]; rfl, fun hlast => ?_⟩
      obtain ⟨t, hok⟩ := h.write_returns R buf
        (show AtfsInode.fileOff.get s.mem x + cnt < 2 ^ 64 from hfit) hlast
      rw [hwrite] at hok
      cases hok
    | ok r => exact .inr ⟨_, _, by rw [answerCall, atfswrite, hwrite]; rfl⟩
  | pwrite buf cnt offset =>
    cases hwrite : nvmioWrite A R s x buf cnt offset with
    | error e =>
      obtain rfl := nvmioWrite_error hwrite
      refine .inl ⟨by rw [answerCall, atfspwrite, hwrite]; rfl, fun hlast => ?_⟩
      obtain ⟨t, hok⟩ := h.write_returns R buf hfit hlast
      rw [hwrite] at hok
      cases hok
    | ok r => exact .inr ⟨_, _, by rw [answerCall, atfspwrite, hwrite]; rfl⟩
  | read buf cnt =>
    obtain ⟨ret, out, h, -⟩ := nvmioRead_fileOf s x (show AtfsInode.fileOff.get s.mem x + cnt <
      2 ^ 64 from hfit) buf
    exact .inr ⟨_, _, by rw [answerCall, atfsread, h]; rfl⟩
  | pread buf cnt offset =>
    obtain ⟨ret, out, h, -⟩ := nvmioRead_fileOf s x (show offset + cnt < 2 ^ 64 from hfit) buf
    exact .inr ⟨_, _, by rw [answerCall, atfspread, h]; rfl⟩
  | lseek offset whence => exact .inr ⟨_, _, rfl⟩

end Faults

/-! ## What waits -/

/-- The section runs what waits. -/
def SysCall.Serves : SysCall → Prop
  | .run _ _ _ => True
  | .collect _ => True
  | _ => False

namespace System

/-- How much waits: the calls that have touched their inode, and what the collector has taken. -/
def waiting (s : System) : Nat := s.entered.length + s.collecting.toList.length

/-- The call finds no pages where they do not last for its rounds, or it is one over `2 ^ 64`. -/
def CallBlocked (A : PageAllocator) (R : RadixTree) (s : System) (x : Nat) (c : Call) : Prop :=
  (answerCall A R x s.state c = .error .noPages ∧
    ¬ A.Lasts (callPages s.state.mem x c) s.state.mem) ∨
    ¬ (viewOf s.state.mem x).Fits c

/-- The collector finds no pages where they do not last for the entries that it moves. -/
def CollectBlocked (A : PageAllocator) (s : System) (x : Nat) : Prop :=
  ∃ r f L last, LogOf A x r s.state.mem f L last ∧ gcInode A x (L.length + 1) s.state =
    .error .noPages ∧
    ¬ A.Lasts (sweepPages L) s.state.mem

/-- Something waits and cannot run. -/
def Blocked (A : PageAllocator) (R : RadixTree) (s : System) : Prop :=
  (∃ p ∈ s.entered, s.CallBlocked A R p.1 p.2) ∨ ∃ x, s.collecting = some x ∧ s.CollectBlocked A x

section Waiting

variable {b : Nat} {A : PageAllocator} {R : RadixTree} {s₀ : State} {s : System}
  {x : Nat} {c : Call} {steps : List (System × SysCall)}

/-- A call that waits can run. -/
theorem Sound.run_or_blocked (R : RadixTree) (h : s.Sound b A) (hwaits : (x, c) ∈ s.entered) :
    s.CallBlocked A R x c ∨ ∃ a u, SysStep b A R s (.run x c a) u ∧ u.waiting + 1 = s.waiting := by
  obtain ⟨F, logs, tables, homes, files, hs⟩ := h
  have hlog := hs.filed.sound.log x (hs.listed_subset (hs.entered (x, c) hwaits))
  by_cases hfit : (viewOf s.state.mem x).Fits c
  · rcases answerCall_cases (R := R) hlog hfit with hfail | ⟨a, t, hrun⟩
    · exact .inl (.inl hfail)
    · obtain ⟨i, hi⟩ := List.getElem?_of_mem hwaits
      obtain ⟨hlt, -⟩ := List.getElem?_eq_some_iff.1 hi
      refine .inr ⟨a, _, .run hi hfit hrun, ?_⟩
      simp only [waiting]
      rw [List.length_eraseIdx_of_lt hlt]
      omega
  · exact .inl (.inr hfit)

/-- The collector can collect what it has taken. -/
theorem Sound.collect_or_blocked (R : RadixTree) (h : s.Sound b A) (hx : s.collecting = some x) :
    s.CollectBlocked A x ∨
    ∃ u, SysStep b A R s (.collect x) u ∧ u.waiting + 1 = s.waiting := by
  obtain ⟨F, logs, tables, homes, files, hs⟩ := h
  have hfile := hs.listed_subset (hs.collecting x hx)
  have hlog := hs.filed.sound.log x hfile
  rcases hlog.gcInode (Nat.lt_succ_self _) with hfail | ⟨t, -, -, -, -, hok, -⟩
  · exact .inl ⟨_, _, _, _, hlog, hfail⟩
  · refine .inr ⟨_, .collect hx hok, ?_⟩
    simp [waiting, hx]

/-- Something that waits can run, and the system stays in order. -/
theorem Sound.serve (R : RadixTree) (hA : TablesApart A) (hb : Mapping b) (h : s.Sound b A)
    (hwaits : s.waiting ≠ 0) :
    s.Blocked A R ∨ ∃ d u, SysStep b A R s d u ∧ d.Serves ∧ u.Sound b A ∧
      u.waiting + 1 = s.waiting := by
  cases hcollecting : s.collecting with
  | some x =>
    rcases h.collect_or_blocked R hcollecting with hblocked | ⟨u, hstep, hless⟩
    · exact .inl (.inr ⟨x, hcollecting, hblocked⟩)
    · exact .inr ⟨_, u, hstep, trivial, (h.step hA hb hstep id).1, hless⟩
  | none =>
    have hne : s.entered ≠ [] := by
      intro hc
      rw [waiting, hcollecting, hc] at hwaits
      exact hwaits rfl
    obtain ⟨⟨x, c⟩, hp⟩ := List.exists_mem_of_ne_nil _ hne
    rcases h.run_or_blocked R hp with hblocked | ⟨a, u, hstep, hless⟩
    · exact .inl (.inl ⟨_, hp, hblocked⟩)
    · exact .inr ⟨_, u, hstep, trivial, (h.step hA hb hstep id).1, hless⟩

/-- One after another, until nothing waits or something is blocked. -/
theorem Sound.drained (R : RadixTree) (hA : TablesApart A) (hb : Mapping b)
    (h : s.Sound b A) : ∃ rest u,
    Run (SysStep b A R) s rest u ∧ (∀ p ∈ rest, p.2.Serves) ∧ rest.length + u.waiting = s.waiting ∧
      (u.waiting = 0 ∨ u.Blocked A R) := by
  generalize hn : s.waiting = n
  induction n generalizing s with
  | zero => exact ⟨[], s, .nil, fun p hp => absurd hp List.not_mem_nil, by simp [hn], .inl hn⟩
  | succ n ih =>
    rcases h.serve R hA hb (by omega) with hblocked | ⟨d, t, hstep, hserves, ht, hless⟩
    · exact ⟨[], s, .nil, fun p hp => absurd hp List.not_mem_nil, by simp [hn], .inr hblocked⟩
    · obtain ⟨rest, u, run, hrest, hlength, hend⟩ := ih ht (by omega)
      refine ⟨(s, d) :: rest, u, (Run.nil.snoc hstep).append run, fun p hp => ?_, ?_, hend⟩
      · rcases List.mem_cons.1 hp with rfl | hp
        · exact hserves
        · exact hrest p hp
      · rw [List.length_cons]
        omega

/-- In every state reached each call that waits, the collector, and a call that allocates can go on
at once unless the pages do not last for it, or it is one over `2 ^ 64`; so everything that waits
can be served. -/
theorem never_stuck (hA : TablesApart A) (hb : Mapping b) (h : FreshRegion b A s₀)
    (run : Run (SysStep b A R) (start s₀) steps s) (hplain : ∀ p ∈ steps, ¬ p.2.Reinserts) :
    (∀ x c, (x, c) ∈ s.entered → s.CallBlocked A R x c ∨
      ∃ a u, SysStep b A R s (.run x c a) u ∧ u.waiting + 1 = s.waiting) ∧
    (∀ x, s.collecting = some x → s.CollectBlocked A x ∨
      ∃ u, SysStep b A R s (.collect x) u ∧ u.waiting + 1 = s.waiting) ∧
    (CleanAlloc A s.state → (allocAtfsInode A s.state = .error .noPages ∧
      ¬ A.Lasts 19 s.state.mem) ∨
      ∃ x u, SysStep b A R s (.alloc x) u) ∧
    ∃ rest u, Run (SysStep b A R) s rest u ∧ (∀ p ∈ rest, p.2.Serves) ∧
    rest.length + u.waiting = s.waiting ∧
      (u.waiting = 0 ∨ u.Blocked A R) := by
  have hs := sound_of_run hA hb (sound_start h) run hplain
  refine ⟨fun x c => hs.run_or_blocked R, fun x => hs.collect_or_blocked R, fun hclean => ?_,
    hs.drained R hA hb⟩
  cases halloc : allocAtfsInode A s.state with
  | error e =>
    obtain rfl := allocAtfsInode_error halloc
    refine .inl ⟨rfl, fun hlast => ?_⟩
    obtain ⟨F, logs, tables, homes, files, hs⟩ := hs
    obtain ⟨r, hok⟩ := hlast.allocAtfsInode hA.toKeepsTables hs.filed.sound.rep
    rw [halloc] at hok
    cases hok
  | ok r =>
    obtain ⟨x, t⟩ := r
    exact .inr ⟨x, _, .alloc hclean halloc⟩

/-- In the sample a read waits while the collector has taken an inode, and both can go on. -/
theorem never_stuck_sample : ∃ (steps : List (System × SysCall)) (s : System) (x y : Nat) (a :
      Answer) (u w : System),
    Run (SysStep (2 ^ 20) volumeAllocator radixTree) (start freshState) steps s ∧
      s.entered = [(x, readCall)] ∧
      s.collecting = some y ∧ SysStep (2 ^ 20) volumeAllocator radixTree s (.run x readCall a) u ∧
      SysStep (2 ^ 20) volumeAllocator radixTree s (.collect y) w := by
  obtain ⟨before, u, s, x, y, run, hstep, -, hplain, h⟩ := busy_run radixTree
  obtain ⟨hcalls, hcollect, -⟩ := never_stuck volumeAllocator_tablesApart mapping_freshState
    freshState_region
    (run.snoc hstep) hplain
  have hfit : (viewOf s.state.mem x).Fits readCall := show 0 + 10 < 2 ^ 64 by decide
  obtain ⟨a, v, hread, -⟩ := (hcalls x readCall (by rw [h.entered]; simp)).resolve_left
    fun hblocked => by
    obtain ⟨ret, out, hread, -⟩ := nvmioRead_fileOf s.state x
      (show 0 + 10 < 2 ^ 64 by decide) fun _ => 0
    rcases hblocked with ⟨hfail, -⟩ | hnot
    · rw [readCall, answerCall, atfspread, hread] at hfail
      cases hfail
    · exact hnot hfit
  obtain ⟨w, hcollected, -⟩ := (hcollect y h.collecting).resolve_left fun hblocked => by
    obtain ⟨r, f, L, last, -, hfail, -⟩ := hblocked
    rw [h.log.gcInode] at hfail
    cases hfail
  exact ⟨_, s, x, y, a, v, w, run.snoc hstep, h.entered, h.collecting, hread, hcollected⟩

end Waiting

end System

end Atfs
