import Atfs.Volume.FileRuns
import Mathlib.Data.Set.Card

/-!
# The pages in use

A page is in use if inodes lie in it, if it is on the log chain of a file or if it is a page of an
entry on the chain, marked or not. No page is in use twice, none that is in use is free, and the
pages in use are as many as have been taken from `alloc_free_pages` and not been given to
`free_pages` since.
-/

namespace Atfs

open ByteMemory LinkedChain LabelledRun

/-! ## Pages in use -/

/-- The page is on the log of the inode, or one of its data pages. -/
def Owns (m : Memory) (inode q : Nat) : Prop := OnChain m inode q ∨
    ∃ T e j, DataPage m inode T e j q

namespace Volume

def inUse (v : Volume) : Set Nat := {q | q ∈ v.homes ∨ ∃ x ∈ v.files, Owns v.state.mem x q}

/-- Every page in use has one use only, and none is free. -/
structure PagesApart (A : PageAllocator) (v : Volume) : Prop where
  free : ∃ F, A.Rep v.state.mem F ∧ ∀ q ∈ v.inUse, IsPage q ∧ q ∉ F
  homes : v.homes.Nodup ∧ ∀ x ∈ v.files, ∀ q, Owns v.state.mem x q → q ∉ v.homes
  file : ∀ x ∈ v.files, ∀ y ∈ v.files, ∀ q, Owns v.state.mem x q → Owns v.state.mem y q → x = y
  log : ∀ x ∈ v.files, ∀ T e j q, DataPage v.state.mem x T e j q → ¬ OnChain v.state.mem x q
  entry : ∀ x ∈ v.files, ∀ T e j T' e' j' q, DataPage v.state.mem x T e j q →
    DataPage v.state.mem x T' e' j' q → T = T' ∧ e = e' ∧ j = j'

section Sound

variable {A : PageAllocator} {F : Set Nat} {logs : Nat → FileLog} {v : Volume} {x T e j q : Nat}

theorem Sound.owns_iff (h : v.Sound A F logs) (hx : x ∈ v.files) : Owns v.state.mem x q ↔
    q ∈ (logs x).own := by
  constructor
  · rintro (hq | ⟨T, e, j, hq⟩)
    · obtain ⟨P, hP, rfl⟩ := (h.onChain_iff hx).1 hq
      exact mem_owned_page hP
    · obtain ⟨P, hP, -, E, hE, -, hq⟩ := (h.dataPage_iff hx).1 hq
      exact mem_owned.2 ⟨P, hP, List.mem_cons_of_mem _
        (mem_pagesOf.2 ⟨E, hE, List.mem_of_getElem? hq⟩)⟩
  · intro hq
    obtain ⟨P, hP, hq⟩ := mem_owned.1 hq
    rcases List.mem_cons.1 hq with rfl | hq
    · exact .inl ((h.onChain_iff hx).2 ⟨P, hP, rfl⟩)
    · obtain ⟨E, hE, hq⟩ := mem_pagesOf.1 hq
      obtain ⟨j, hj, rfl⟩ := List.getElem_of_mem hq
      exact .inr ⟨P.page, E.off, j, (h.dataPage_iff hx).2
        ⟨P, hP, rfl, E, hE, rfl, List.getElem?_eq_getElem hj⟩⟩

theorem Sound.pagesApart (h : v.Sound A F logs) (hhomes : v.homes.Nodup) : v.PagesApart A where
  free := by
    refine ⟨F, h.rep, ?_⟩
    rintro q (hq | ⟨x, hx, hq⟩)
    · exact ⟨(h.home q hq).1, (h.home q hq).2.1⟩
    · rw [h.owns_iff hx] at hq
      exact ⟨h.isPage_own hx q hq, h.own_notFree hx q hq⟩
  homes := by
    refine ⟨hhomes, fun x hx q hq hhome => ?_⟩
    exact (h.home q hhome).2.2 x hx ((h.owns_iff hx).1 hq)
  file x hx y hy q hq hq' := by
    by_contra hxy
    exact h.disjoint x hx y hy hxy ((h.owns_iff hx).1 hq) ((h.owns_iff hy).1 hq')
  log x hx T e j q hq hchain := by
    obtain ⟨P, hP, -, E, hE, -, hq⟩ := (h.dataPage_iff hx).1 hq
    obtain ⟨Q, hQ, rfl⟩ := (h.onChain_iff hx).1 hchain
    exact page_notMem_pagesOf (h.log x hx).log.nodup hQ hP
      (mem_pagesOf.2 ⟨E, hE, List.mem_of_getElem? hq⟩)
  entry x hx T e j T' e' j' q hq hq' := by
    obtain ⟨P, hP, rfl, E, hE, rfl, hpage⟩ := (h.dataPage_iff hx).1 hq
    obtain ⟨P', hP', rfl, E', hE', rfl, hpage'⟩ := (h.dataPage_iff hx).1 hq'
    have hlog := (h.log x hx).log
    have hnodup := (pagesOf_entriesIn_sublist (logs x).all).nodup hlog.nodup
    obtain ⟨rfl, rfl⟩ := eq_of_mem_pages hnodup (mem_entriesIn.2 ⟨P, hP, hE⟩)
      (mem_entriesIn.2 ⟨P', hP', hE'⟩)
      hpage hpage'
    refine ⟨?_, rfl, rfl⟩
    rw [← (hlog.rep P hP).logPageOff_eq hE, (hlog.rep P' hP').logPageOff_eq hE']

end Sound

/-! ## Counting -/

/-- The pages that inodes lie in and those of the logs `logs`. -/
def pagesHeld (v : Volume) (logs : Nat → FileLog) : Nat :=
  v.homes.length + (v.files.map fun x => (logs x).own.length).sum

/-- Every file has its log, and as many pages have gone out since `s₀` as are held. -/
structure Booked (A : PageAllocator) (s₀ : State) (F : Set Nat) (logs : Nat → FileLog)
    (v : Volume) : Prop where
  sound : v.Sound A F logs
  homes : v.homes.Nodup
  files : v.files.Nodup
  balance : PagesBalance s₀ v.state 0 (v.pagesHeld logs)

section Count

variable {A : PageAllocator} {R : RadixTree} {F F' : Set Nat} {logs : Nat → FileLog} {v v' : Volume}
  {s s₀ : State} {l : FileLog} {x : Nat} {c : FsCall} {steps : List (Volume × FsCall)}

theorem sum_update {files : List Nat} (hnodup : files.Nodup) (hx : x ∈ files) :
    (files.map fun y => (Function.update logs x l y).own.length).sum + (logs x).own.length =
      (files.map fun y => (logs y).own.length).sum + l.own.length := by
  induction files with
  | nil => cases hx
  | cons y files ih =>
    obtain ⟨hy, hnodup⟩ := List.nodup_cons.1 hnodup
    rw [List.map_cons, List.map_cons, List.sum_cons, List.sum_cons]
    cases List.mem_cons.1 hx with
    | inl hxy =>
      subst hxy
      have hrest : (files.map fun y => (Function.update logs x l y).own.length) =
          files.map fun y => (logs y).own.length := by
        refine List.map_congr_left fun z hz => ?_
        have hzx : z ≠ x := fun hc => hy (hc ▸ hz)
        rw [Function.update_of_ne hzx]
      rw [hrest, Function.update_self]
      omega
    | inr hx =>
      have hyx : y ≠ x := fun hc => hy (hc ▸ hx)
      have hrest := ih hnodup hx
      rw [Function.update_of_ne hyx]
      omega

/-- The pages in use are those that are held. -/
theorem Booked.ncard_inUse (h : v.Booked A s₀ F logs) : v.inUse.ncard = v.pagesHeld logs := by
  have hset : v.inUse = {q | q ∈ v.homes ++ v.files.flatMap fun x => (logs x).own} := by
    ext q
    simp only [inUse, Set.mem_ofPred_eq, List.mem_append, List.mem_flatMap]
    exact or_congr_right (exists_congr fun x => and_congr_right fun hx => h.sound.owns_iff hx)
  have hnodup : (v.homes ++ v.files.flatMap fun x => (logs x).own).Nodup := by
    refine h.homes.append (List.nodup_flatMap.2 ⟨fun x hx => (h.sound.log x hx).log.nodup, ?_⟩) ?_
    · refine h.files.imp_of_mem fun {x y} hx hy hxy => ?_
      exact h.sound.disjoint x hx y hy hxy
    · intro q hq hq'
      obtain ⟨x, hx, hq'⟩ := List.mem_flatMap.1 hq'
      exact (h.sound.home q hq).2.2 x hx hq'
  have hfin : {q | q ∈ v.homes ++ v.files.flatMap fun x => (logs x).own} =
      ((v.homes ++ v.files.flatMap fun x => (logs x).own).toFinset : Set Nat) := by
    ext q
    simp
  rw [hset, hfin, Set.ncard_coe_finset, List.toFinset_card_of_nodup hnodup, List.length_append,
    List.length_flatMap, pagesHeld]

/-- Another log for a file, for the pages that have gone out or come back. -/
theorem Booked.replace (h : v.Booked A s₀ F logs) (hx : x ∈ v.files)
    (hsound : Volume.Sound A F' (Function.update logs x l) ⟨s, v.homes, v.files⟩)
    (hbalance : PagesBalance v.state s (logs x).own.length l.own.length) :
    Volume.Booked A s₀ F' (Function.update logs x l) ⟨s, v.homes, v.files⟩ := by
  refine ⟨hsound, h.homes, h.files, ?_⟩
  have hsum : (v.files.map fun y => (Function.update logs x l y).own.length).sum +
    (logs x).own.length =
      (v.files.map fun y => (logs y).own.length).sum + l.own.length := sum_update h.files hx
  have hold := h.balance
  unfold pagesHeld PagesBalance at *
  simp only at *
  omega

/-- Nothing but the size and the position of a file is set. -/
theorem Booked.info {m' : Memory} (h : v.Booked A s₀ F logs) (hx : x ∈ v.files)
    (hm : ChangesOnly (infoBytes x) v.state.mem m') :
    Volume.Booked A s₀ F logs ⟨{ v.state with mem := m' }, v.homes, v.files⟩ :=
  ⟨h.sound.info hx hm, h.homes, h.files, h.balance⟩

/-- Nothing is written but beside the files. -/
theorem Booked.side (h : v.Booked A s₀ F logs) (hside : v.SideWrite A s) :
    Volume.Booked A s₀ F logs ⟨s, v.homes, v.files⟩ := by
  refine ⟨h.sound.side hside, h.homes, h.files, ?_⟩
  have hbalance := h.balance
  unfold pagesHeld PagesBalance at *
  rwa [hside.trace]

theorem Booked.nvmioWrite {buf : Memory} {cnt fileOff ret : Nat} (h : v.Booked A s₀ F logs)
    (hx : x ∈ v.files) (hb : fileOff + cnt < 2 ^ 64)
    (hrun : nvmioWrite A R v.state x buf cnt fileOff = .ok (ret, s)) :
    ∃ F' logs', Volume.Booked A s₀ F' logs' ⟨s, v.homes, v.files⟩ := by
  obtain ⟨f', L', last', evs, s₁, hgrows, hmem, htrace⟩ : ∃ f' L' last' evs s₁,
      LogGrows A (AtfsInode.logHead.get v.state.mem x) ((logs x).frontier F) f' (logs x).pages
      (logs x).last L' last'
        evs v.state s₁ ∧ s.mem = updateInodeTail s₁.mem x f'.tail ∧ s.trace = s₁.trace := by
    cases Nat.eq_zero_or_pos cnt with
    | inl hzero =>
      subst hzero
      obtain ⟨f', L', last', evs, s₁, hgrows, hmem, htrace, -⟩ :=
        (h.sound.log x hx).write_zero (by omega) hrun
      exact ⟨f', L', last', evs, s₁, hgrows, hmem, htrace⟩
    | inr hpos =>
      obtain ⟨f', L', last', evs, s₁, hgrows, hmem, htrace, -⟩ :=
        (h.sound.log x hx).write hpos (by omega) (by omega) hrun
      exact ⟨f', L', last', evs, s₁, hgrows, hmem, htrace⟩
  obtain ⟨hsound, -⟩ := h.sound.grow hx hgrows hmem htrace
  exact ⟨_, _, h.replace hx hsound (hgrows.balance.trans (.of_trace htrace))⟩

theorem Booked.call {c : Call} {a : Answer} (h : v.Booked A s₀ F logs) (hx : x ∈ v.files)
    (hfit : (viewOf v.state.mem x).Fits c) (hrun : answerCall A R x v.state c = .ok (a, s)) :
    ∃ F' logs', Volume.Booked A s₀ F' logs' ⟨s, v.homes, v.files⟩ := by
  cases c with
  | write buf cnt =>
    obtain ⟨⟨ret, t⟩, hcall, hrun⟩ := bind_eq_ok.1 hrun
    obtain ⟨⟨ret', s₁⟩, hwrite, hcall⟩ := bind_eq_ok.1 hcall
    obtain ⟨-, rfl⟩ := Prod.mk.inj (Except.ok.inj hcall)
    obtain ⟨-, rfl⟩ := Prod.mk.inj (Except.ok.inj hrun)
    obtain ⟨F', logs', h'⟩ := h.nvmioWrite hx hfit hwrite
    have hinfo : ChangesOnly (infoBytes x) s₁.mem (updateInodeInfo s₁.mem x cnt) :=
      (changesOnly_fileOff s₁.mem x _).trans (updateInodeSize_spec _ x 0).1
    exact ⟨F', logs', h'.info hx hinfo⟩
  | pwrite buf cnt offset =>
    obtain ⟨⟨ret, t⟩, hcall, hrun⟩ := bind_eq_ok.1 hrun
    obtain ⟨⟨ret', s₁⟩, hwrite, hcall⟩ := bind_eq_ok.1 hcall
    obtain ⟨-, rfl⟩ := Prod.mk.inj (Except.ok.inj hcall)
    obtain ⟨-, rfl⟩ := Prod.mk.inj (Except.ok.inj hrun)
    obtain ⟨F', logs', h'⟩ := h.nvmioWrite hx hfit hwrite
    exact ⟨F', logs', h'.info hx (updateInodeSize_spec s₁.mem x cnt).1⟩
  | read buf cnt =>
    obtain ⟨⟨ret, out, t⟩, hcall, hrun⟩ := bind_eq_ok.1 hrun
    obtain ⟨⟨ret', out'⟩, hread, hcall⟩ := bind_eq_ok.1 hcall
    obtain ⟨-, -, rfl⟩ : ret' = ret ∧ out' = out ∧ _ = t := by simpa using hcall
    obtain ⟨-, rfl⟩ := Prod.mk.inj (Except.ok.inj hrun)
    exact ⟨F, logs, h.info hx (changesOnly_fileOff v.state.mem x _)⟩
  | pread buf cnt offset =>
    obtain ⟨⟨ret, out, t⟩, hcall, hrun⟩ := bind_eq_ok.1 hrun
    obtain ⟨⟨ret', out'⟩, hread, hcall⟩ := bind_eq_ok.1 hcall
    obtain ⟨-, -, rfl⟩ : ret' = ret ∧ out' = out ∧ v.state = t := by simpa using hcall
    obtain ⟨-, rfl⟩ := Prod.mk.inj (Except.ok.inj hrun)
    exact ⟨F, logs, h⟩
  | lseek offset whence =>
    obtain ⟨-, rfl⟩ : _ ∧ (atfslseek v.state x offset whence).2 = s := by
      simpa [answerCall] using hrun
    obtain ⟨m', hseek, hinfo, -⟩ := atfslseek_view v.state x hfit
    rw [hseek]
    exact ⟨F, logs, h.info hx hinfo⟩

theorem Booked.home {node : Nat} (h : v.Booked A s₀ F logs)
    (halloc : A.allocFreePages v.state 1 = .ok (node, s)) :
    ∃ F', Volume.Booked A s₀ F' logs ⟨s, ListNode.offset.get s.mem node :: v.homes, v.files⟩ := by
  obtain ⟨p, l, F₁, rfl, hlen, hall⟩ := PageAllocator.allocFreePages_spec h.sound.rep le_rfl halloc
  obtain ⟨q, rfl⟩ : ∃ q, l = [q] := List.length_eq_one_iff.1 hlen
  obtain rfl : p = q := hall.chain.chain.head_eq
  have hoff : ListNode.offset.get s.mem (p + 4096) = p := hall.chain.offset p (by simp)
  obtain ⟨F', -, hsound⟩ := h.sound.takeHome halloc
  have hbalance := h.balance
  have hout := PagesBalance.alloc halloc
  rw [hoff] at hsound ⊢
  refine ⟨F', hsound, List.nodup_cons.2 ⟨fun hp => ?_, h.homes⟩, h.files, ?_⟩
  · exact (h.sound.home p hp).2.1 (hall.fresh p (by simp))
  · unfold pagesHeld PagesBalance at *
    simp only [List.length_cons] at *
    omega

theorem Booked.init {p : Nat} (h : v.Booked A s₀ F logs) (hp : p ∈ v.homes) (hin : InodeIn x p)
    (hapart : ∀ y ∈ v.files, x + 216 ≤ y ∨ y + 216 ≤ x) (hclean : v.Clean A (.init x))
    (hinit : initAtfsInode A v.state x = .ok s) :
    ∃ F' logs', Volume.Booked A s₀ F' logs' ⟨s, v.homes, x :: v.files⟩ := by
  obtain ⟨f, hf, hsound⟩ := h.sound.init_empty hp hin hapart hclean hinit
  have hxnot : x ∉ v.files := fun hc => by
    have := hapart x hc
    omega
  refine ⟨_, _, hsound, h.homes, List.nodup_cons.2 ⟨hxnot, h.files⟩, h.balance.trans ?_⟩
  have hrest : (v.files.map fun y => (Function.update logs x ⟨p, [], ⟨f.page, []⟩⟩ y).own.length) =
      v.files.map fun y => (logs y).own.length := by
    refine List.map_congr_left fun y hy => ?_
    have hyx : y ≠ x := fun hc => hxnot (hc ▸ hy)
    rw [Function.update_of_ne hyx]
  have hone : (FileLog.own ⟨p, [], ⟨f.page, []⟩⟩).length = 1 := rfl
  simp only [pagesHeld, PagesBalance, List.map_cons, List.sum_cons, Function.update_self, hrest,
    hone, hf.trace, pagesTaken, pagesHanded, Event.taken, Event.handed]
  omega

theorem Booked.invalidate {T e j q pageOff : Nat} (h : v.Booked A s₀ F logs) (hx : x ∈ v.files)
    (hlive : LiveData v.state.mem x T e j q) (hpos : invalidatePos v.state.mem e pageOff = j) :
    ∃ logs', Volume.Booked A s₀ F logs'
      ⟨{ v.state with mem := invalidateOldLogEntry v.state.mem e pageOff }, v.homes, v.files⟩ := by
  have hinside : LivePage v.state.mem e pageOff := ⟨hpos ▸ hlive.inside, hpos ▸ hlive.valid⟩
  obtain ⟨P, hP, -, E, hE, rfl, -⟩ := (h.sound.liveData_iff hx).1 hlive
  obtain ⟨pos, -, hsound, -⟩ := h.sound.mark hx hP hE hinside
  generalize invalidateOldLogEntry v.state.mem E.off pageOff = m at hsound ⊢
  refine ⟨_, h.replace hx hsound ?_⟩
  rw [FileLog.own_mark]
  exact .of_trace rfl

/-- A call keeps the books. -/
theorem Booked.step (h : v.Booked A s₀ F logs) (hstep : FsStep A R v c v') :
    ∃ F' logs', v'.Booked A s₀ F' logs' := by
  cases hstep with
  | home halloc =>
    obtain ⟨F', h'⟩ := h.home halloc
    exact ⟨F', logs, h'⟩
  | init hp hin hapart hclean hinit => exact h.init hp hin hapart hclean hinit
  | call hx hfit hrun => exact h.call hx hfit hrun
  | invalidate hx hlive hpos =>
    obtain ⟨logs', h'⟩ := h.invalidate hx hlive hpos
    exact ⟨F, logs', h'⟩
  | gc hx hgc =>
    obtain ⟨F', Z, last', evs, -, hsound, -, -, -, hbalance⟩ := h.sound.gc_repacked hx hgc
    exact ⟨F', _, h.replace hx hsound hbalance⟩
  | side hside => exact ⟨F, logs, h.side hside⟩

theorem booked_empty (hF : A.Rep s.mem F) :
    Volume.Booked A s F (fun _ => ⟨0, [], ⟨0, []⟩⟩) ⟨s, [], []⟩ :=
  ⟨sound_empty hF, List.nodup_nil, List.nodup_nil, .refl _ _⟩

theorem Booked.run (hF : A.Rep s.mem F) (run : Run (FsStep A R) ⟨s, [], []⟩ steps v) :
    ∀ u ∈ visited steps v, ∃ F' logs', u.Booked A s F' logs' := by
  refine run.always (Q := fun _ _ => True) ⟨F, _, booked_empty hF⟩ ?_ fun _ _ => trivial
  rintro u c u' ⟨F', logs', hu⟩ hstep -
  exact hu.step hstep

/-- Over every run, no page is used twice and none that is in use is free. -/
theorem pages_apart (hF : A.Rep s.mem F) (run : Run (FsStep A R) ⟨s, [], []⟩ steps v) :
    ∀ u ∈ visited steps v, u.PagesApart A := by
  intro u hu
  obtain ⟨F', logs', h⟩ := Booked.run hF run u hu
  exact h.sound.pagesApart h.homes

theorem pages_apart_sample : ∃ (steps : List (Volume × FsCall)) (v : Volume) (x e pageOff : Nat),
    Run (FsStep pageAllocator radixTree) emptyVolume steps v ∧
      steps.map Prod.snd = [.home, .init x, .call x (.pwrite UInt8.ofNat 10 0) (.value (10 : Nat)),
        .call x (.pwrite (fun _ => 7) 10 0) (.value (10 : Nat)), .invalidate x e pageOff, .gc x] ∧
      ∀ u ∈ visited steps v, u.PagesApart pageAllocator := by
  obtain ⟨steps, v, x, e, pageOff, run, -, hcalls, -⟩ := emptyVolume_run
  exact ⟨steps, v, x, e, pageOff, run, hcalls, pages_apart emptyVolume_rep run⟩

/-- No page is lost: over every run, those taken and not handed back are in use. -/
theorem pages_conserved (hF : A.Rep s.mem F) (run : Run (FsStep A R) ⟨s, [], []⟩ steps v) :
    ∀ u ∈ visited steps v, pagesTaken u.state.trace + pagesHanded s.trace =
      pagesTaken s.trace + pagesHanded u.state.trace + u.inUse.ncard := by
  intro u hu
  obtain ⟨F', logs', h⟩ := Booked.run hF run u hu
  rw [h.ncard_inUse]
  exact h.balance

theorem pages_conserved_sample : ∃ (steps : List (Volume × FsCall)) (v :
      Volume) (x e pageOff : Nat),
    Run (FsStep pageAllocator radixTree) emptyVolume steps v ∧
      steps.map Prod.snd = [.home, .init x, .call x (.pwrite UInt8.ofNat 10 0) (.value (10 : Nat)),
        .call x (.pwrite (fun _ => 7) 10 0) (.value (10 : Nat)), .invalidate x e pageOff, .gc x] ∧
      ∀ u ∈ visited steps v, pagesTaken u.state.trace + pagesHanded emptyVolume.state.trace =
        pagesTaken emptyVolume.state.trace + pagesHanded u.state.trace + u.inUse.ncard := by
  obtain ⟨steps, v, x, e, pageOff, run, -, hcalls, -⟩ := emptyVolume_run
  exact ⟨steps, v, x, e, pageOff, run, hcalls, pages_conserved emptyVolume_rep run⟩

end Count

end Volume

end Atfs
