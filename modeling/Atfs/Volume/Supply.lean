import Atfs.Volume.FileSteps

/-!
# How long the pages last for a volume

A write to a file takes the pages of its rounds, and the collection of a log at most twice the data
pages of the log. As long as there are so many the calls return. What a write has overwritten stays
in the log until it is invalidated.
-/

namespace Atfs

open ByteMemory LinkedChain

namespace Volume

section Replaced

variable {A : PageAllocator} {R : RadixTree} {F : Set Nat} {logs : Nat → FileLog}
  {v : Volume} {s : State} {x cnt offset ret : Nat} {buf : Memory}

/-- The page `q` is in the log of the file, for page number `i` of it, and the index does not have
it. -/
def Replaced (s : State) (x i q : Nat) : Prop :=
  FilePage s.mem x i q ∧ ∀ key, s.index x key ≠ q

/-- A write maps the pages it covers, and what it has overwritten is still in the log. -/
theorem Filed.nvmioWrite_replaced (h : v.Filed A F logs) (hx : x ∈ v.files) (hpos : 1 ≤ cnt)
    (hb : offset + cnt < 2 ^ 64) (hrun : Atfs.nvmioWrite A R v.state x buf cnt offset =
      .ok (ret, s)) {i : Nat}
    (hi : offset / 4096 ≤ i) (hi' : i * 4096 < offset + cnt) :
    s.index x (i * 4096) ≠ offsetNull ∧ (v.state.index x (i * 4096) ≠ offsetNull →
      Replaced s x i (v.state.index x (i * 4096))) := by
  obtain ⟨-, ⟨F', logs', h', f', es, ha, hall⟩, -⟩ := h.nvmioWrite hx hb hrun
  have hlen := ha.length_pagesOf hb (by omega)
  obtain ⟨j, hj, hkey⟩ : ∃ j < (pagesOf es).length, i * 4096 = firstPage offset + 4096 * j := by
    rw [hlen, firstPage]
    exact ⟨i - offset / 4096, by omega, by omega⟩
  have hnew := ha.inside j _ _ (List.getElem?_eq_getElem hj) hkey
  have hfresh := (ha.fresh _ (List.getElem_mem hj)).1
  rw [← hnew] at hfresh
  refine ⟨(A.rep_page h.sound.rep _ hfresh).ne_offsetNull, fun hold => ?_⟩
  obtain ⟨-, hlive⟩ := h.indexed x hx _ hold
  rw [Nat.mul_div_cancel _ (show 0 < 4096 by decide)] at hlive
  have hkept : LiveAt (entriesIn (logs' x).all) i (v.state.index x (i * 4096)) := by
    rw [hall, liveAt_append]
    exact .inl hlive
  refine ⟨(h'.sound.filePage_iff hx).2 hkept, fun key hc => ?_⟩
  -- another page of the file has another page of the log
  have hne := h.sound.isPage_own hx _ hlive.mem_own
  obtain ⟨hal, hlive'⟩ := h'.indexed x hx key (hc.symm ▸ hne.ne_offsetNull)
  have hsame := liveAt_unique (h'.sound.log x hx).log.nodup (hc ▸ hlive') hkept
  obtain rfl : key = i * 4096 := by omega
  exact h.sound.own_notFree hx _ hlive.mem_own (hc ▸ hfresh)

end Replaced

section Ample

variable {A : PageAllocator} {F : Set Nat} {logs : Nat → FileLog} {v : Volume}
  {n x k cnt offset : Nat}

/-- A volume in order with `n` pages to spare. The log of the file `x` has `k` data pages. -/
structure Ample (A : PageAllocator) (n x k : Nat) (v : Volume) : Prop where
  lasts : A.Lasts n v.state.mem
  filed : ∃ F logs, v.Filed A F logs ∧ (pagesOf (entriesIn (logs x).all)).length = k

variable (cnt offset) in
/-- A write to a file returns as long as there are pages for its rounds. -/
theorem Ample.pwrite (h : Ample A (n + roundPages (pageCount cnt offset)) x k v) (hx : x ∈ v.files)
    (R : RadixTree) (buf : Memory) (hpos : 1 ≤ cnt) (hb : offset + cnt < 2 ^ 64) :
    ∃ s, answerCall A R x v.state (.pwrite buf cnt offset) = .ok (.value cnt, s) ∧
      Ample A n x (k + pageCount cnt offset) ⟨s, v.homes, v.files⟩ ∧
      ∀ i, offset / 4096 ≤ i → i * 4096 < offset + cnt → s.index x (i * 4096) ≠ offsetNull ∧
        (v.state.index x (i * 4096) ≠ offsetNull →
          Replaced s x i (v.state.index x (i * 4096))) := by
  obtain ⟨F, logs, h₀, hk⟩ := h.filed
  have hnum : (writeVars v.state.mem x cnt offset).pageNums = pageCount cnt offset :=
    writeVars_pageCount _ _ hpos hb
  obtain ⟨ret, s, hwrite, hlast⟩ := (h₀.sound.log x hx).write_lasts R buf hpos (by omega) (by omega)
    (hnum ▸ h.lasts)
  have hreplaced {i : Nat} := h₀.nvmioWrite_replaced hx hpos hb hwrite (i := i)
  obtain ⟨rfl, ⟨F', logs', h', f', es, ha, hall⟩, -⟩ := h₀.nvmioWrite hx hb hwrite
  obtain ⟨hinfo, -⟩ := updateInodeSize_spec s.mem x ret
  have hcall : answerCall A R x v.state (.pwrite buf ret offset) =
      .ok (.value ret, { s with mem := updateInodeSize s.mem x ret }) := by
    rw [answerCall, atfspwrite, hwrite]
    rfl
  generalize updateInodeSize s.mem x ret = m' at hinfo hcall
  have h'' := (h'.info hx hinfo).1
  refine ⟨_, hcall, ⟨?_, F', logs', h'', ?_⟩, fun i hi hi' =>
    ⟨(hreplaced hi hi').1, fun hold => ?_⟩⟩
  · have hlog := h'.sound.log x hx
    exact hlast.congr h'.sound.rep ((hinfo.mono infoBytes_subset_inodeBytes).eqOn
      (hlog.inodeIn.apart (A.rep_page h'.sound.rep) hlog.inUse))
  · rw [hall, pagesOf_append, List.length_append, hk, ha.chunks.length_pagesOf, hnum]
  · obtain ⟨hpage, hnone⟩ := (hreplaced hi hi').2 hold
    exact ⟨(h''.sound.filePage_iff hx).2 ((h'.sound.filePage_iff hx).1 hpage), hnone⟩

/-- A page that has been replaced can be invalidated. -/
theorem Ample.invalidate {i q : Nat} (h : Ample A n x k v) (hx : x ∈ v.files)
    (hq : Replaced v.state x i q) :
    ∃ T e j pageOff, LiveData v.state.mem x T e j q ∧ invalidatePos v.state.mem e pageOff = j ∧
      Ample A n x k
        ⟨{ v.state with mem := invalidateOldLogEntry v.state.mem e pageOff },
          v.homes, v.files⟩ := by
  obtain ⟨⟨T, e, j, hlive, -⟩, hstale⟩ := hq
  obtain ⟨F, logs, h₀, hk⟩ := h.filed
  have hj : j < 64 := by
    obtain ⟨P, hP, -, E, hE, -, hq, -⟩ := (h₀.sound.liveData_iff hx).1 hlive
    have hle := (((h₀.sound.log x hx).log.rep P hP).stored E hE).le
    have := (List.getElem?_eq_some_iff.1 hq).1
    omega
  obtain ⟨pageOff, hpos⟩ := exists_invalidatePos v.state.mem e hj
  obtain ⟨⟨logs', h', hpages⟩, hframe, -⟩ := h₀.invalidate hx hlive hpos hstale
  refine ⟨T, e, j, pageOff, hlive, hpos, ?_⟩
  have hlast := h.lasts.congr h₀.sound.rep hframe
  generalize hs : ({ v.state with mem := invalidateOldLogEntry v.state.mem e pageOff } : State) =
    s at h' ⊢
  have hmem : s.mem = invalidateOldLogEntry v.state.mem e pageOff := by rw [← hs]
  exact ⟨hmem ▸ hlast, F, logs', h', by rw [hpages, hk]⟩

/-- There are pages for the collection of the log. -/
theorem Ample.lasts_sweep {r : Nat} {f : Frontier} {L : List LogPage} {last : LogPage}
    (h : Ample A n x k v) (hx : x ∈ v.files) (hn : 2 * k ≤ n)
    (hL : LogOf A x r v.state.mem f L last) :
    A.Lasts (sweepPages L) v.state.mem := by
  obtain ⟨F, logs, h₀, rfl⟩ := h.filed
  have hlog := h₀.sound.log x hx
  obtain ⟨rfl, -⟩ := hL.log.unique hlog.log (hL.tail.symm.trans hlog.tail)
  exact h₀.sound.lasts_sweep hx h.lasts hn

/-- The log is collected as long as there are twice as many pages as it has data pages. -/
theorem Ample.gc (h : Ample A n x k v) (hx : x ∈ v.files) (hn : 2 * k ≤ n) :
    ∃ fuel s, gcInode A x fuel v.state = .ok s := by
  obtain ⟨F, logs, h₀, rfl⟩ := h.filed
  exact h₀.sound.gc_ok hx h.lasts hn

end Ample

end Volume

end Atfs
