import Atfs.Inode.Basic
import Atfs.Io.Write

/-!
# How long the pages last for a write

A round of `nvmio_write` takes the pages of its chunk and, if the last page of the log is full, one
more for the log. As long as there are pages for all rounds the write returns.
-/

namespace Atfs

open ByteMemory LinkedChain

/-- The pages that the rounds for `pageNums` pages take at most, those for the log included. -/
def roundPages (pageNums : Nat) : Nat := pageNums + (pageNums + 63) / 64

section Rounds

variable {A : PageAllocator} {inode : Nat} {buf : Memory} {f : Frontier} {v : WriteVars} {s : State}
  {n fuel : Nat}

variable (inode buf) in
/-- A round returns if there are pages for its chunk and for the log. -/
theorem writeChunk_returns (hf : f.Holds A s.mem) (htail : v.logTail = f.tail)
    (hn : 1 ≤ v.allocNum) (hlast : A.Lasts (1 + v.allocNum) s.mem) :
    ∃ r, writeChunk A inode buf v s = .ok r := by
  have hle : v.allocNum ≤ maxNumPagePerEntry := by
    rw [v.allocNum_eq]
    exact Nat.min_le_right _ _
  obtain ⟨⟨node, s₁⟩, halloc⟩ := hlast.allocFreePages_ok hf.rep hn hle
  have hlast₁ := hlast.allocFreePages hf.rep hn hle halloc
  obtain ⟨p, l, F', -, -, hall⟩ := PageAllocator.allocFreePages_spec hf.rep hn halloc
  have hf₁ := (hall.logStep hf ∅).holds
  cases hentry : getLogEntry A s₁ v.logTail with
  | error e =>
    rw [htail] at hentry
    exact absurd hlast₁ (getLogEntry_starved hf₁ hentry).2.2
  | ok r => exact ⟨_, bind_eq_ok.2 ⟨_, halloc, bind_eq_ok.2 ⟨_, hentry, rfl⟩⟩⟩

variable (inode buf) in
/-- The rounds that are left return, and leave what they do not need. -/
theorem writeLoop_lasts (hf : f.Holds A s.mem) (htail : v.logTail = f.tail) (hv : v.Sized)
    (hsize : v.fileSize < 2 ^ 64) (hfuel : v.pageNums < fuel)
    (hlast : A.Lasts (n + roundPages v.pageNums) s.mem) :
    ∃ v' s', ∃ f' : Frontier, writeLoop A inode buf fuel v s = .ok (v', s') ∧ A.Lasts n s'.mem ∧
      f'.Holds A s'.mem ∧ f'.free ⊆ f.free := by
  induction fuel generalizing v s f with
  | zero => omega
  | succ fuel ih =>
    have hn := v.allocNum_eq
    have hpos := hv.allocNum_bounds.1
    rw [roundPages] at hlast
    rw [writeLoop, if_pos (by omega)]
    obtain ⟨⟨v₁, s₁⟩, hc⟩ := writeChunk_returns inode buf hf htail hpos (hlast.mono (by omega))
    obtain ⟨f₁, E, evs, hE, -, -, -, hfile, hnext, -, hlasts⟩ :=
      writeChunk_entry hf htail hv hsize hc
    have hopened : pagesOpened evs ≤ 1 := by
      rw [hE.grown.pagesOpened]
      split_ifs <;> omega
    have hleft := writeChunk_pageNums hc
    have hlast₁ : A.Lasts (n + roundPages v₁.pageNums) s₁.mem := by
      refine hlasts _ (hlast.mono ?_)
      rw [roundPages]
      omega
    rw [hc]
    simp only [bind, Except.bind]
    by_cases hmore : 64 < v.pageNums
    · have hv₁ : v₁.Sized := by
        rw [hnext]
        exact hv.next hmore _ _
      have hsize₁ : v₁.fileSize < 2 ^ 64 := by
        rw [← hfile, ← hE.stored.words.fileSize]
        exact Field.get_lt _ _ _
      have htail₁ : v₁.logTail = f₁.tail := by rw [hnext]; rfl
      obtain ⟨v', s', f', hloop, hlast', hf', hsub⟩ :=
        ih hE.step.holds htail₁ hv₁ hsize₁ (by omega) hlast₁
      exact ⟨v', s', f', hloop, hlast', hf', hsub.trans hE.step.sub⟩
    · -- no pages are left, so the next test ends the loop
      obtain ⟨fuel, rfl⟩ := Nat.exists_eq_succ_of_ne_zero (show fuel ≠ 0 by omega)
      refine ⟨v₁, s₁, f₁, ?_, hlast₁.mono (Nat.le_add_right _ _), hE.step.holds, hE.step.sub⟩
      rw [writeLoop, if_neg (by omega)]

/-- A write returns if there are pages for all of its rounds, and leaves what they do not need. -/
theorem nvmioWrite_lasts {cnt fileOff : Nat} (h : WritePre A f s inode cnt fileOff) (R : RadixTree)
    (buf : Memory) (hlast : A.Lasts (n + roundPages ((cnt + fileOff % 4096 + 4095) / 4096)) s.mem) :
    ∃ s', nvmioWrite A R s inode buf cnt fileOff = .ok (cnt, s') ∧ A.Lasts n s'.mem := by
  have hpos := h.pos
  have hb := h.bound
  have hv := writeVars_sized s.mem inode hpos (show cnt < 2 ^ 64 by omega)
    (show fileOff < 2 ^ 64 by omega)
  rw [← writeVars_pageNums s.mem inode hpos hb] at hlast
  obtain ⟨v', s₁, -, hloop, hlast₁, -⟩ := writeLoop_lasts inode buf h.holds h.tail hv
    (AtfsInode.iSize.get_lt _ _) (Nat.lt_succ_self _) hlast
  have hrun : ∃ s', nvmioWrite A R s inode buf cnt fileOff = .ok (cnt, s') :=
    ⟨_, bind_eq_ok.2 ⟨(v', s₁), hloop, rfl⟩⟩
  obtain ⟨s', hrun⟩ := hrun
  refine ⟨s', hrun, ?_⟩
  obtain ⟨-, s₂, f', es, ts, evs, ⟨v'', hloop'⟩, hwr, -, -, -, -, -, hs'⟩ := nvmioWrite_run h hrun
  obtain ⟨-, rfl⟩ : v' = v'' ∧ s₁ = s₂ := by simpa using hloop.symm.trans hloop'
  have hmem : s'.mem = updateInodeTail s₁.mem inode f'.tail := congrArg State.mem hs'
  -- the tail stands in the page of the inode, which is in use
  obtain ⟨p, hp, hpF, -, hle, hle'⟩ := h.inodePage
  rw [hmem]
  refine hlast₁.congr hwr.step.holds.rep (eqOn_of_inUse (A.rep_page hwr.step.holds.rep)
    (AtfsInode.logTail.changesOnly_set s₁.mem inode f'.tail) fun a ha => ?_)
  refine ⟨p, hp, fun hc => hpF (hwr.step.sub hc), ?_⟩
  rw [show sizeofAtfsInode = 216 from rfl] at hle'
  simp only [Field.bytes, AtfsInode.logTail_off, AtfsInode.logTail_size, Set.mem_Ico] at ha
  rw [mem_pageBytes]
  omega

end Rounds

/-! ## On the repository's allocator -/

section File

variable {size : Nat} {body : Nat → Nat → UInt8} {index : Nat → Nat}

theorem fileInode_page : ∃ p, InodePage fileFrontier fileInode p := by
  refine ⟨fileInode, isPage_pageOff (by omega), pageOff_not_free (by omega), ?_, le_rfl, ?_⟩
  · intro h
    exact absurd (pageOff_injective h) (by decide)
  · rw [show sizeofAtfsInode = 216 from rfl]
    omega

variable (size body) in
/-- Every write without wrap may be tried on the file. -/
theorem fileState_writePre {cnt fileOff : Nat} (hmap : Mapped index fileFrontier) (hpos : 1 ≤ cnt)
    (hb : fileOff + cnt < 2 ^ 64) :
    WritePre pageAllocator fileFrontier (fileState size body index) fileInode cnt fileOff where
  holds := fileFrontier_holds
  tail := fileState_logTail
  inodePage := fileInode_page
  mapped := by
    rw [fileState]
    simpa using hmap
  pos := hpos
  bound := hb

variable (size body) in
/-- A write to the file returns as long as one local list has the pages. -/
theorem fileState_write_ok {cnt fileOff : Nat} (hmap : Mapped index fileFrontier) (hpos : 1 ≤ cnt)
    (hb : fileOff + cnt < 2 ^ 64) (hone : fileOff % 4096 + cnt ≤ 4096 * 63) (buf : Memory) :
    ∃ ret s', nvmioWrite pageAllocator radixTree (fileState size body index) fileInode buf cnt
      fileOff = .ok (ret, s') := by
  have hlast : pageAllocator.Lasts 64 (fileState size body index).mem :=
    fileState_stocked.lasts pageAllocator_follows
  obtain ⟨s', hwrite, -⟩ := nvmioWrite_lasts (n := 0)
    (fileState_writePre size body hmap hpos hb) radixTree buf
    (hlast.mono (by rw [roundPages]; omega))
  exact ⟨_, s', hwrite⟩

end File

end Atfs
