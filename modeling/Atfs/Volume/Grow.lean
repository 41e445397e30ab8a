import Atfs.Gc.Task
import Atfs.Io.Appended
import Atfs.Io.Supply

/-!
# Growing logs

One entry after the other is appended to a log, each for pages that the allocator has handed out for
it. `nvmio_write` grows the log of its inode and then moves the tail behind it.
-/

namespace Atfs

open ByteMemory LinkedChain

/-- From `s` to `s'` the log has grown by entries for pages that were free. -/
structure LogGrows (A : PageAllocator) (head : Nat) (f f' : Frontier) (L : List LogPage)
    (last : LogPage) (L' : List LogPage) (last' : LogPage) (evs : List Event)
    (s s' : State) : Prop where
  log : LogRep s'.mem head f' L' last'
  step : ∃ ts, LogStep A ∅ f f' ts s.mem s'.mem
  recorded : Recorded evs s s'
  evolves : Evolves L last L' last' evs
  opened : ∀ q ∈ openedPages evs, q ∈ f.free
  reach : ∀ q ∈ owned (L' ++ [last']), q ∈ f.free ∨ q ∈ owned (L ++ [last])
  balance : PagesBalance s s' (owned (L ++ [last])).length (owned (L' ++ [last'])).length

/-- The log has grown by the entries `es`, which the trace has in this order. -/
structure LogAppended (L : List LogPage) (last : LogPage) (L' : List LogPage) (last' : LogPage)
    (es : List LogEntry) (evs : List Event) : Prop where
  entriesIn : entriesIn (L' ++ [last']) = entriesIn (L ++ [last]) ++ es
  entriesOf : entriesOf evs = es.map (·.off)

/-- The node of every valid page of an entry names the entry. -/
def Named (m : Memory) (Ps : List LogPage) : Prop :=
  ∀ P ∈ Ps, ∀ E ∈ P.entries, ∀ i q, E.pages[i]? = some q → E.invalid i = false →
    ListNode.logEntry.get m (q + 4096) = E.off

section Grow

variable {A : PageAllocator} {head inode r : Nat} {f f₁ f' : Frontier} {L L₁ L' : List LogPage}
  {last last₁ last' : LogPage} {evs evs' : List Event} {s s₁ s' : State} {E : LogEntry}
  {m m' : Memory}

theorem LogGrows.trans (h : LogGrows A head f f₁ L last L₁ last₁ evs s s₁)
    (h' : LogGrows A head f₁ f' L₁ last₁ L' last' evs' s₁ s') :
    LogGrows A head f f' L last L' last' (evs' ++ evs) s s' := by
  obtain ⟨ts, hstep⟩ := h.step
  obtain ⟨ts', hstep'⟩ := h'.step
  refine ⟨h'.log, ⟨_, hstep.trans hstep' (by simp)⟩, h.recorded.trans h'.recorded,
    h.evolves.trans h'.evolves, fun q hq => ?_, fun q hq => ?_, h.balance.trans h'.balance⟩
  · rw [openedPages_append] at hq
    exact (List.mem_append.1 hq).elim (h.opened q) fun hq => hstep.sub (h'.opened q hq)
  · exact (h'.reach q hq).elim (fun hq => .inl (hstep.sub hq)) (h.reach q)

theorem Extends.appended (h : Extends L last E L' last' evs) (hevs : entriesOf evs = [E.off]) :
    LogAppended L last L' last' [E] evs :=
  ⟨h.entriesIn, hevs⟩

theorem LogAppended.trans {es es' : List LogEntry} (h : LogAppended L last L₁ last₁ es evs)
    (h' : LogAppended L₁ last₁ L' last' es' evs') : LogAppended L last L' last' (es ++ es')
    (evs' ++ evs) := by
  refine ⟨?_, ?_⟩
  · rw [h'.entriesIn, h.entriesIn, List.append_assoc]
  · rw [entriesOf_append, h.entriesOf, h'.entriesOf, List.map_append]

/-- What a log owns with one entry more. -/
theorem Extends.length_owned (h : Extends L last E L' last' evs) :
    (owned (L' ++ [last'])).length = (owned (L ++ [last])).length + E.pages.length +
    pagesOpened evs := by
  rw [Atfs.length_owned, Atfs.length_owned, h.entriesIn, pagesOf_append, List.length_append,
    pagesOf_cons, pagesOf_nil, List.append_nil]
  rcases h with ⟨rfl, -, rfl⟩ | ⟨rfl, -, rfl⟩
  · simp [pagesOpened, Event.opened, Nat.add_assoc]
  · simp [pagesOpened, Event.opened]
    omega

/-- An entry for pages that were free. -/
theorem EntryStep.grows (h : EntryStep A f f' s.mem s'.mem E evs) (hrec : Recorded evs s s')
    (hbalance : PagesBalance s s' (pagesOpened s.trace) (E.pages.length + pagesOpened s'.trace))
    (hlog : LogRep s.mem head f L last) (hf : f.Holds A s.mem) (hfree : ∀ q ∈ E.pages, q ∈ f.free) :
    ∃ L' last', LogGrows A head f f' L last L' last' evs s s' ∧ Extends L last E L' last' evs := by
  obtain ⟨L', last', hlog', hext⟩ := hlog.append hf h fun q hq hc => hlog.inUse q hc (hfree q hq)
  have hev := hext.evolves hlog' .refl
  rw [List.append_nil] at hev
  have hopened : ∀ q ∈ openedPages evs, q ∈ f.free := by
    intro q hq
    rcases hext with ⟨-, -, rfl⟩ | ⟨-, -, rfl⟩
    · simp [openedPages, Event.page?] at hq
    · obtain rfl : E.off = q := by simpa [openedPages, Event.page?] using hq
      cases h.grown with
      | newPage full _ _ _ _ _ =>
        obtain ⟨hnew, hoff⟩ := h.page_new full
        exact hoff ▸ hnew
  refine ⟨L', last', ⟨hlog', ⟨_, h.step⟩, hrec, hev, hopened, fun q hq => ?_, ?_⟩, hext⟩
  · rcases hext.mem_owned hq with hq | hq | hq
    · exact .inr hq
    · exact .inl (hfree q hq)
    · exact .inl (hopened q hq)
  · have hnum := hrec.pagesHanded.2
    rw [hext.length_owned]
    unfold PagesBalance at *
    omega

theorem Extends.mem_entries {P : LogPage} {N : LogEntry} (h : Extends L last E L' last' evs)
    (hP : P ∈ L' ++ [last']) (hN : N ∈ P.entries) : N = E ∨ ∃ Q ∈ L ++ [last], N ∈ Q.entries := by
  rcases h with ⟨rfl, rfl, -⟩ | ⟨rfl, rfl, -⟩
  · rcases List.mem_append.1 hP with hP | hP
    · exact .inr ⟨P, List.mem_append_left _ hP, hN⟩
    · obtain rfl := List.mem_singleton.1 hP
      rcases List.mem_append.1 hN with hN | hN
      · exact .inr ⟨last, by simp, hN⟩
      · exact .inl (List.mem_singleton.1 hN)
  · rcases List.mem_append.1 hP with hP | hP
    · exact .inr ⟨P, hP, hN⟩
    · obtain rfl := List.mem_singleton.1 hP
      exact .inl (List.mem_singleton.1 hN)

/-- A new entry that its pages name leaves the others named: no step writes to their pages. -/
theorem EntryStep.named (h : EntryStep A f f' m m' E evs) (hext : Extends L last E L' last' evs)
    (hlog : LogRep m head f L last) (hf : f.Holds A m)
    (hnew : ∀ q ∈ E.pages, ListNode.logEntry.get m' (q + 4096) = E.off)
    (hnamed : Named m (L ++ [last])) :
    Named m' (L' ++ [last']) := by
  intro P hP N hN i q hq hbit
  rcases hext.mem_entries hP hN with rfl | ⟨Q, hQ, hNQ⟩
  · exact hnew q (List.mem_of_getElem? hq)
  · have hqQ : q ∈ pagesOf Q.entries := mem_pagesOf.2 ⟨N, hNQ, List.mem_of_getElem? hq⟩
    have hown : q ∈ Q.own := List.mem_cons_of_mem _ hqQ
    have hne : q ≠ f.page := by
      rintro rfl
      exact page_notMem_pagesOf hlog.nodup (Q := last) (by simp) hQ (hlog.page ▸ hqQ)
    refine (Field.get_congr fun a ha => ?_).trans (hnamed Q hQ N hNQ i q hq hbit)
    refine h.step.keeps hf ((hlog.rep Q hQ).isPage_own q hown)
      (hlog.inUse q (mem_owned.2 ⟨Q, hQ, hown⟩))
      hne ?_ (Set.notMem_empty a)
    simp only [Field.bytes, ListNode.logEntry_off, ListNode.logEntry_size, Set.mem_Ico] at ha
    rw [mem_pageBytes]
    omega

/-! ## Writes -/

/-- The pages that a round takes are those of its entry, and those opened for it. -/
theorem writeChunk_balance {buf : Memory} {v v' : WriteVars}
    (h : writeChunk A inode buf v s = .ok (v', s')) :
    PagesBalance s s' (pagesOpened s.trace) (v.allocNum + pagesOpened s'.trace) := by
  rw [writeChunk] at h
  obtain ⟨⟨node, s₁⟩, halloc, h⟩ := bind_eq_ok.1 h
  obtain ⟨⟨e, tail', s₂⟩, hentry, h⟩ := bind_eq_ok.1 h
  obtain ⟨-, rfl⟩ := Prod.mk.inj (Except.ok.inj h)
  have hbalance := getLogEntry_balance halloc hentry
  exact hbalance

/-- The rounds of `nvmio_write` that are left. -/
theorem writeLoop_grows {buf : Memory} {fuel : Nat} {v v' : WriteVars}
    (hlog : LogRep s.mem head f L last) (hf : f.Holds A s.mem) (htail : v.logTail = f.tail)
    (hv : v.Sized) (hsize : v.fileSize < 2 ^ 64)
    (h : writeLoop A inode buf fuel v s = .ok (v', s')) :
    ∃ f' L' last' evs, LogGrows A head f f' L last L' last' evs s s' ∧
      (Named s.mem (L ++ [last]) → Named s'.mem (L' ++ [last'])) ∧
      (∃ es, LogAppended L last L' last' es evs) ∧ v'.logTail = f'.tail := by
  induction fuel generalizing v s f L last with
  | zero => simp [writeLoop] at h
  | succ fuel ih =>
    have hn := v.allocNum_eq
    have hpos : v.pageNums > 0 := by
      have := hv.allocNum_bounds
      omega
    rw [writeLoop, if_pos hpos] at h
    obtain ⟨⟨v₁, s₁⟩, hc, h⟩ := bind_eq_ok.1 h
    obtain ⟨f₁, E, evs, hE, hrec, hpages, hnum, hfile, hnext, -⟩ :=
      writeChunk_entry hf htail hv hsize hc
    obtain ⟨L₁, last₁, hgrows, hext⟩ := hE.grows hrec (hnum ▸ writeChunk_balance hc) hlog hf
      fun q hq => (hpages q hq).1
    have happ := hext.appended hE.grown.entriesOf
    have hnamed := hE.named hext hlog hf fun q hq => (hpages q hq).2
    have htail₁ : v₁.logTail = f₁.tail := by rw [hnext]; rfl
    by_cases hmore : 64 < v.pageNums
    · have hv₁ : v₁.Sized := by
        rw [hnext]
        exact hv.next hmore _ _
      have hsize₁ : v₁.fileSize < 2 ^ 64 := by
        rw [← hfile, ← hE.stored.words.fileSize]
        exact Field.get_lt _ _ _
      obtain ⟨f', L', last', evs', hgrows', hnamed', ⟨es, happ'⟩, htail'⟩ :=
        ih hgrows.log hE.step.holds
        htail₁ hv₁ hsize₁ h
      exact ⟨f', L', last', _, hgrows.trans hgrows', fun hold => hnamed' (hnamed hold),
        ⟨_, happ.trans happ'⟩, htail'⟩
    · -- no pages are left, so the next test ends the loop
      have hzero : v₁.pageNums = 0 := by
        have := writeChunk_pageNums hc
        omega
      obtain ⟨rfl, rfl⟩ : v₁ = v' ∧ s₁ = s' := by
        cases fuel with
        | zero => simp [writeLoop] at h
        | succ fuel => simpa [writeLoop, hzero] using h
      exact ⟨f₁, L₁, last₁, evs, hgrows, hnamed, ⟨_, happ⟩, htail₁⟩

/-! ## The tail -/

/-- The inode behind a log that has moved on. -/
theorem LogRep.setTail {A : PageAllocator} {inode r : Nat} {m : Memory} {f : Frontier}
    {L : List LogPage} {last : LogPage} (h : LogRep m (AtfsInode.logHead.get m inode) f L last)
    (hf : f.Holds A m) (hin : InodeIn inode r) (hr : r ∉ f.free) (hrL : r ∉ owned (L ++ [last])) :
    LogOf A inode r (updateInodeTail m inode f.tail) f L last := by
  have hframe : ChangesOnly (inodeBytes inode) m (updateInodeTail m inode f.tail) :=
    AtfsInode.changesOnly _ _ _ _
  have hhead : AtfsInode.logHead.get (updateInodeTail m inode f.tail) inode =
      AtfsInode.logHead.get m inode :=
    Field.get_set_of_disjoint _ _ _ (by simp)
  have htail : f.tail < 2 ^ 64 := by
    have := hf.isPage.bounds
    have := hf.tail_le
    omega
  refine ⟨{ hf with rep := A.rep_congr hf.rep (hframe.eqOn (hin.apart (A.rep_page hf.rep) hr)) },
    ?_, Field.get_set_self_of_lt _ _ htail, hin, hr, hrL⟩
  rw [hhead]
  refine h.congr (fun q hq => hframe.eqOn (hin.disjoint_page ?_ ?_)) h.inUse rfl rfl
  · obtain ⟨P, hP, hqP⟩ := mem_owned.1 hq
    exact (h.rep P hP).isPage_own q hqP
  · rintro rfl
    exact hrL hq

/-- A step of the log does not reach the inode. -/
theorem LogOf.get_step {ts : List Nat} (h : LogOf A inode r m f L last)
    (hs : LogStep A ∅ f f' ts m m') (g : Field 216) : g.get m' inode = g.get m inode := by
  have hlast : f.page ∈ owned (L ++ [last]) := h.log.page ▸ mem_owned_page (by simp)
  obtain ⟨hpage, hle, hle'⟩ := h.inodeIn
  rw [show sizeofAtfsInode = 216 from rfl] at hle'
  refine Field.get_congr fun a ha => hs.keeps h.holds hpage h.inUse ?_ ?_ (Set.notMem_empty a)
  · rintro rfl
    exact h.apart hlast
  · have hfits := g.fits
    rw [Field.bytes, Set.mem_Ico] at ha
    rw [mem_pageBytes]
    omega

/-- The log of the inode when the tail has been moved behind it. -/
theorem LogGrows.setTail
    (hg : LogGrows A (AtfsInode.logHead.get s.mem inode) f f' L last L' last' evs s s₁)
    (h : LogOf A inode r s.mem f L last) :
    LogOf A inode r (updateInodeTail s₁.mem inode f'.tail) f' L' last' ∧
      ChangesOnly (logBytes f inode (owned (L ++ [last]))) s.mem
      (updateInodeTail s₁.mem inode f'.tail) := by
  obtain ⟨ts, hstep⟩ := hg.step
  have hlast : f.page ∈ owned (L ++ [last]) := h.log.page ▸ mem_owned_page (by simp)
  have hlog := hg.log
  rw [← h.get_step hstep] at hlog
  refine ⟨hlog.setTail hstep.holds h.inodeIn (fun hc => h.inUse (hstep.sub hc)) fun hc =>
    (hg.reach r hc).elim h.inUse h.apart, ?_⟩
  have hlogBytes := (hstep.mono (Set.empty_subset (linkBytesOf ∅))).frame_logBytes
    h.holds inode hlast
    fun q hq => absurd hq (Set.notMem_empty q)
  exact hlogBytes.trans ((AtfsInode.changesOnly _ _ _ _).mono fun a ha => .inr ha)

/-- `update_radixtree` behind a log that has grown sets the index only. -/
theorem LogGrows.updateRadixtree (R : RadixTree)
    (hg : LogGrows A (AtfsInode.logHead.get s.mem inode) f f' L last L' last' evs s s₁)
    (h : LogOf A inode r s.mem f L last) :
    ∃ index, R.updateRadixtree { s₁ with mem := updateInodeTail s₁.mem inode f'.tail } inode
      (AtfsInode.logTail.get s₁.mem inode) = ⟨updateInodeTail s₁.mem inode f'.tail, index,
        s₁.currentCpu, s₁.trace⟩ := by
  obtain ⟨ts, hstep⟩ := hg.step
  have hlog := (hg.setTail h).1
  have hchange : ChangesOnly (AtfsInode.logTail.bytes inode) s₁.mem
      (updateInodeTail s₁.mem inode f'.tail) :=
    AtfsInode.logTail.changesOnly_set _ _ _
  obtain ⟨hpage, hle, hle'⟩ := h.inodeIn
  rw [show sizeofAtfsInode = 216 from rfl] at hle'
  have hstep' : LogStep A (AtfsInode.logTail.bytes inode) f f' ts s.mem
      (updateInodeTail s₁.mem inode f'.tail) := by
    refine (hstep.mono (Set.empty_subset _)).write_inside hchange (fun a ha => .inr ha) fun a ha =>
      ⟨r, hpage, hlog.inUse, ?_⟩
    simp only [Field.bytes, AtfsInode.logTail_off, AtfsInode.logTail_size, Set.mem_Ico] at ha
    rw [mem_pageBytes, mem_linkBytes]
    omega
  have htail := hlog.tail
  have hpath := hstep'.path
  have hnot := hstep'.tail_not_mem
  generalize updateInodeTail s₁.mem inode f'.tail = m at *
  rw [← htail] at hpath hnot
  rw [h.get_step hstep, h.tail, R.spec { s₁ with mem := m } inode f.tail ts hpath hnot]
  exact ⟨_, rfl⟩

/-- Names are kept where the nodes of the data pages are. -/
theorem Named.congr {Ps : List LogPage} (h : Named m Ps)
    (heq : ∀ q ∈ dataPages Ps, Set.EqOn m' m (Set.Ico (q + 4128) (q + 4136))) : Named m' Ps := by
  intro P hP E hE i q hq hbit
  refine (Field.get_congr fun a ha => heq q ?_ ?_).trans (h P hP E hE i q hq hbit)
  · exact mem_dataPages.2 ⟨P, hP, mem_pagesOf.2 ⟨E, hE, List.mem_of_getElem? hq⟩⟩
  · simp only [Field.bytes, ListNode.logEntry_off, ListNode.logEntry_size, Set.mem_Ico] at ha
    rw [Set.mem_Ico]
    omega

/-- A write of at least one byte: its pages name their entries. -/
theorem LogOf.write {R : RadixTree} {buf : Memory} {cnt fileOff ret : Nat}
    (h : LogOf A inode r s.mem f L last) (hpos : 1 ≤ cnt) (hcnt : cnt < 2 ^ 64)
    (hb : fileOff < 2 ^ 64) (hrun : nvmioWrite A R s inode buf cnt fileOff = .ok (ret, s')) :
    ∃ f' L' last' evs s₁, LogGrows A (AtfsInode.logHead.get s.mem inode) f f' L last L'
      last' evs s s₁ ∧
      s'.mem = updateInodeTail s₁.mem inode f'.tail ∧ s'.trace = s₁.trace ∧
      (∃ es, LogAppended L last L' last' es evs) ∧
      (Named s.mem (L ++ [last]) → Named s₁.mem (L' ++ [last'])) := by
  rw [nvmioWrite] at hrun
  obtain ⟨⟨v', s₁⟩, hloop, hrun⟩ := bind_eq_ok.1 hrun
  obtain ⟨-, rfl⟩ := Prod.mk.inj (Except.ok.inj hrun)
  obtain ⟨f', L', last', evs, hgrows, hnamed, happ, htail⟩ := writeLoop_grows h.log h.holds h.tail
    (writeVars_sized s.mem inode hpos hcnt hb) (AtfsInode.iSize.get_lt _ _) hloop
  obtain ⟨index, hindex⟩ := hgrows.updateRadixtree R h
  rw [htail, hindex]
  exact ⟨f', L', last', evs, s₁, hgrows, rfl, rfl, happ, hnamed⟩

/-- It returns as long as there are pages for all of its rounds, and leaves what they do not need.
-/
theorem LogOf.write_lasts {cnt fileOff n : Nat} (h : LogOf A inode r s.mem f L last) (R : RadixTree)
    (buf : Memory) (hpos : 1 ≤ cnt) (hcnt : cnt < 2 ^ 64) (hb : fileOff < 2 ^ 64)
    (hlast : A.Lasts (n + roundPages (writeVars s.mem inode cnt fileOff).pageNums) s.mem) :
    ∃ ret s', nvmioWrite A R s inode buf cnt fileOff = .ok (ret, s') ∧ A.Lasts n s'.mem := by
  have hv := writeVars_sized s.mem inode hpos hcnt hb
  have hsize : (writeVars s.mem inode cnt fileOff).fileSize < 2 ^ 64 := AtfsInode.iSize.get_lt _ _
  obtain ⟨v', s₁, -, hloop, hlast₁, -⟩ :=
    writeLoop_lasts inode buf h.holds h.tail hv hsize (Nat.lt_succ_self _) hlast
  obtain ⟨f', L', last', evs, hgrows, -, -, htail⟩ :=
    writeLoop_grows (v := writeVars s.mem inode cnt fileOff) h.log h.holds h.tail hv hsize hloop
  obtain ⟨index, hindex⟩ := hgrows.updateRadixtree R h
  obtain ⟨ts, hstep⟩ := hgrows.step
  rw [← htail] at hindex
  refine ⟨cnt, _, bind_eq_ok.2 ⟨(v', s₁), hloop, congrArg (fun t => Except.ok (cnt, t)) hindex⟩, ?_⟩
  rw [htail]
  have htail' : ChangesOnly (inodeBytes inode) s₁.mem (updateInodeTail s₁.mem inode f'.tail) :=
    AtfsInode.changesOnly _ _ _ _
  exact hlast₁.congr hstep.holds.rep (htail'.eqOn
    (h.inodeIn.apart (A.rep_page hstep.holds.rep) fun hc => h.inUse (hstep.sub hc)))

/-- A write of no bytes goes one round, or more than there are pages for. -/
theorem writeVars_zero (m : Memory) (inode fileOff : Nat) :
    (writeVars m inode 0 fileOff).pageNums = 1 ∨ nvmFreeNumPages <
    (writeVars m inode 0 fileOff).pageNums := by
  rw [writeVars, nvmFreeNumPages_eq]
  simp only [and_pageOffsetMask, Nat.shiftRight_eq_div_pow, addU64, subU64]
  rw [show 2 ^ pageShift = 4096 from rfl]
  omega

/-- Whatever is to be written, `nvmio_write` returns as long as there are pages for all of its
rounds. -/
theorem LogOf.write_returns {cnt fileOff : Nat} (h : LogOf A inode r s.mem f L last) (R : RadixTree)
    (buf : Memory) (hb : fileOff + cnt < 2 ^ 64)
    (hlast : A.Lasts (roundPages (writeVars s.mem inode cnt fileOff).pageNums) s.mem) :
    ∃ t, nvmioWrite A R s inode buf cnt fileOff = .ok t := by
  rcases Nat.eq_zero_or_pos cnt with rfl | hpos
  · have hnum := (writeVars_zero s.mem inode fileOff).resolve_right fun hc => by
      have := hlast.le_numPages h.holds.rep
      rw [roundPages] at this
      omega
    have hn := (writeVars s.mem inode 0 fileOff).allocNum_eq
    obtain ⟨⟨v₁, s₁⟩, hc⟩ := writeChunk_returns (v := writeVars s.mem inode 0 fileOff) inode buf
      h.holds h.tail
      (by omega) (hlast.mono (by rw [roundPages]; omega))
    have hleft := writeChunk_pageNums hc
    have hloop : writeLoop A inode buf ((writeVars s.mem inode 0 fileOff).pageNums + 1)
        (writeVars s.mem inode 0 fileOff) s = .ok (v₁, s₁) := by
      rw [hnum, writeLoop, if_pos (by omega), hc]
      simp only [bind, Except.bind]
      rw [writeLoop, if_neg (by omega)]
    exact ⟨_, bind_eq_ok.2 ⟨_, hloop, rfl⟩⟩
  · obtain ⟨ret, s', hwrite, -⟩ := h.write_lasts (n := 0) R buf hpos (by omega) (by omega)
      (hlast.mono (Nat.zero_add _).le)
    exact ⟨_, hwrite⟩

theorem Extends.mem_new (h : Extends L last E L' last' evs) : E ∈ last'.entries := by
  rcases h with ⟨-, rfl, -⟩ | ⟨-, rfl, -⟩ <;> simp

/-- A round of one page that copies nothing leaves the name in the node of the page. -/
theorem writeChunk_unnamed {buf : Memory} {v v' : WriteVars} (hf : f.Holds A s.mem)
    (htail : v.logTail = f.tail) (hzero : v.totalSize = 0) (hone : v.allocNum = 1)
    (hstart : v.startPage < 2 ^ 64) (hsize : v.fileSize < 2 ^ 64)
    (h : writeChunk A inode buf v s = .ok (v', s')) :
    ∃ f' q sa sb evs E, A.allocFreePages s 1 = .ok (q + 4096, sa) ∧
      getLogEntry A sa f.tail = .ok (E.off, f'.tail, sb) ∧ EntryStep A f f' s.mem s'.mem E evs ∧
      Recorded evs s s' ∧ E.pages = [q] ∧ q ∈ f.free ∧ v'.logTail = f'.tail ∧
      Set.EqOn s'.mem s.mem (Set.Ico (q + 4128) (q + 4136)) := by
  rw [writeChunk] at h
  obtain ⟨⟨node, sa⟩, halloc, h⟩ := bind_eq_ok.1 h
  obtain ⟨⟨e, t, sb⟩, hentry, h⟩ := bind_eq_ok.1 h
  simp only [htail] at hentry
  simp only [hone] at halloc h
  obtain ⟨f', q, l, rfl, rfl, hlen, hob⟩ := obtained_of_allocFreePages hf le_rfl halloc hentry
  obtain ⟨q', rfl⟩ : ∃ q', l = [q'] := List.length_eq_one_iff.1 hlen
  obtain rfl : q = q' := hob.chain.chain.head_eq
  have hparts (w : Nat) : chunkParts v 1 w = (0, 0, 0) := by
    rw [chunkParts_single (by omega), hzero]
    rfl
  have hcopy (c : Cursor) : writePages buf e v.offset (0, 0, 0) c = c := by
    rw [writePages]
    simp
  have hfirst (m : Memory) (p k : Nat) : fillFirstPage m p k v.offset 0 = m := if_neg (by simp)
  have hlast (m : Memory) (p k : Nat) : fillLastPage m p k 0 = m := if_neg (by simp)
  simp only [hparts, hcopy, hfirst, hlast] at h
  obtain ⟨rfl, rfl⟩ := Prod.mk.inj (Except.ok.inj h)
  have hsize' := v.fileSize_next_lt hsize v.userBuf f'.tail
  simp only [WriteVars.next, hone] at hsize'
  obtain ⟨evs, hE, hrec, hkeep, -⟩ := hob.entryStep hf le_rfl (show 1 ≤ 64 by decide) halloc
    hentry (.refl _ _)
    hsize' hstart (addU64_lt v.startPage (chunkSize v 1)) rfl
  refine ⟨f', q, sa, sb, evs, _, halloc, hentry, hE, hrec, rfl, (hob.fresh q (by simp)).1, rfl, ?_⟩
  intro a ha
  rw [Set.mem_Ico] at ha
  have haq : a ∈ pageBytes q := by
    rw [mem_pageBytes]
    omega
  exact (hkeep q (by simp) haq).trans (hob.body q (by simp) a haq (by rw [mem_linkBytes]; omega))

/-- A write of no bytes takes a page and does not set the name in its node. -/
theorem LogOf.write_zero {R : RadixTree} {buf : Memory} {fileOff ret : Nat}
    (h : LogOf A inode r s.mem f L last) (hb : fileOff < 2 ^ 64)
    (hrun : nvmioWrite A R s inode buf 0 fileOff = .ok (ret, s')) :
    ∃ f' L' last' evs s₁, LogGrows A (AtfsInode.logHead.get s.mem inode) f f' L last L'
      last' evs s s₁ ∧
      s'.mem = updateInodeTail s₁.mem inode f'.tail ∧ s'.trace = s₁.trace ∧
      (∃ es, LogAppended L last L' last' es evs) ∧
      ∃ q sa e sb, A.allocFreePages s 1 = .ok (q + 4096, sa) ∧
        getLogEntry A sa (AtfsInode.logTail.get s.mem inode) = .ok (e, f'.tail, sb) ∧
        (Named s.mem (L ++ [last]) →
          (Named s₁.mem (L' ++ [last']) ↔ ListNode.logEntry.get s.mem (q + 4096) = e)) := by
  obtain ⟨v', s₁, hchunk, hnums, -, rfl⟩ := nvmioWrite_zero_round h.holds h.tail hb hrun
  have hstart : (writeVars s.mem inode 0 fileOff).startPage < 2 ^ 64 := by
    rw [writeVars_startPage s.mem inode 0 hb]
    omega
  have hone : (writeVars s.mem inode 0 fileOff).allocNum = 1 := by
    rw [WriteVars.allocNum_eq, hnums]
    rfl
  obtain ⟨f', q, sa, sb, evs, E, halloc, hentry, hE, hrec, hpages, hq, htail, hkeep⟩ :=
    writeChunk_unnamed h.holds h.tail rfl hone hstart (AtfsInode.iSize.get_lt _ _) hchunk
  have hbalance := writeChunk_balance hchunk
  rw [hone, ← List.length_singleton (a := q), ← hpages] at hbalance
  obtain ⟨L', last', hgrows, hext⟩ := hE.grows hrec hbalance h.log h.holds fun p hp => by
    rw [hpages, List.mem_singleton] at hp
    exact hp ▸ hq
  obtain ⟨index, hindex⟩ := hgrows.updateRadixtree R h
  have hword : ListNode.logEntry.get s₁.mem (q + 4096) = ListNode.logEntry.get s.mem
      (q + 4096) := by
    refine Field.get_congr fun a ha => hkeep ?_
    simp only [Field.bytes, ListNode.logEntry_off, ListNode.logEntry_size, Set.mem_Ico] at ha
    rw [Set.mem_Ico]
    omega
  rw [htail, hindex, h.tail]
  refine ⟨f', L', last', evs, s₁, hgrows, rfl, rfl, ⟨_, hext.appended hE.grown.entriesOf⟩, q,
    sa, E.off, sb, halloc, hentry, fun hnamed => ?_⟩
  rw [← hword]
  constructor
  · intro hnamed'
    refine hnamed' last' (by simp) E hext.mem_new 0 q (by rw [hpages]; rfl) ?_
    rw [LogEntry.invalid, hE.valid.2, Nat.zero_testBit]
  · intro heq
    refine hE.named hext h.log h.holds (fun p hp => ?_) hnamed
    rw [hpages, List.mem_singleton] at hp
    rw [hp, heq]

/-! ## The entries of a write -/

/-- An entry is what its slot says. -/
theorem LogEntry.Stored.eq {E' : LogEntry} (h : E.Stored m) (h' : E'.Stored m)
    (hoff : E.off = E'.off) :
    E = E' := by
  obtain ⟨hdata, hsize, hstart, hstop, -, hinv, hbits⟩ := h.words
  obtain ⟨hdata', hsize', hstart', hstop', -, hinv', hbits'⟩ := h'.words
  have hchain := h'.chain.chain
  rw [← hdata', ← hoff, hdata] at hchain
  have hpages : E.pages = E'.pages := h.chain.chain.unique_of_end hchain
    (fun hc => (h.chain.page _ hc).ne_offsetNull rfl) fun hc =>
      (h'.chain.page _ hc).ne_offsetNull rfl
  rw [hoff] at hsize hstart hstop hinv hbits
  cases E
  cases E'
  simp only at hoff hpages
  subst hoff hpages
  simp_all

/-- Entries in the same slots are the same. -/
theorem stored_eq_of_map_off {es es' : List LogEntry} (h : ∀ E ∈ es, E.Stored m)
    (h' : ∀ E ∈ es', E.Stored m) (hoff : es.map (·.off) = es'.map (·.off)) : es = es' := by
  induction es generalizing es' with
  | nil => exact (List.map_eq_nil_iff.1 hoff.symm).symm
  | cons E es ih =>
    cases es' with
    | nil => cases hoff
    | cons E' es' =>
      obtain ⟨hhead, hrest⟩ := List.cons.inj hoff
      rw [(h E (by simp)).eq (h' E' (by simp)) hhead, ih (fun N hN => h N (by simp [hN]))
        (fun N hN => h' N (by simp [hN])) hrest]

/-- So are log pages at the same place. -/
theorem LogPage.Rep.eq {P Q : LogPage} (h : P.Rep m) (h' : Q.Rep m) (hpage : P.page = Q.page) :
    P = Q := by
  obtain ⟨T, es⟩ := P
  obtain ⟨T', es'⟩ := Q
  obtain rfl : T = T' := hpage
  have hlen : es.length = es'.length :=
    congrArg Counters.objCnt (h.counters.symm.trans h'.counters)
  have hentries : es = es' := by
    refine stored_eq_of_map_off h.stored h'.stored
      (List.ext_getElem (by simpa using hlen) fun i hi hi' => ?_)
    rw [List.length_map] at hi hi'
    rw [List.getElem_map, List.getElem_map, h.place i _ (List.getElem?_eq_getElem hi),
      h'.place i _ (List.getElem?_eq_getElem hi')]
  rw [hentries]

/-- A log is what the memory says between its head and its tail. -/
theorem LogRep.unique {f' : Frontier} (h : LogRep m head f L last) (h' : LogRep m head f' L' last')
    (htail : f.tail = f'.tail) : L = L' ∧ last = last' := by
  have hpage {g : Frontier} {K : List LogPage} {P : LogPage} (hK : LogRep m head g K P) :
      logPageOff g.tail = P.page ∧ P.page ∉ K.map (·.page) := by
    have hle := (hK.rep P (by simp)).length_le
    refine ⟨?_, fun hc => ?_⟩
    · rw [hK.tail]
      exact (hK.rep P (by simp)).isPage.logPageOff_eq (by rw [mem_pageBytes]; omega)
    · have hnodup := (pages_sublist_owned _).nodup hK.nodup
      rw [List.map_append, List.map_singleton, List.nodup_append] at hnodup
      exact hnodup.2.2 _ hc _ (List.mem_singleton_self _) rfl
  have hend : last.page = last'.page := by rw [← (hpage h).1, htail, (hpage h').1]
  have hlast := (h.rep last (by simp)).eq (h'.rep last' (by simp)) hend
  subst hlast
  have hpages := h.chain.unique_of_end h'.chain (hpage h).2 (hpage h').2
  refine ⟨List.ext_getElem (by simpa using congrArg List.length hpages) fun i hi hi' => ?_, rfl⟩
  refine (h.rep _ (List.mem_append_left _ (List.getElem_mem hi))).eq
    (h'.rep _ (List.mem_append_left _ (List.getElem_mem hi'))) ?_
  have hi₁ : i < (L.map (·.page)).length := by rwa [List.length_map]
  have hi₂ : i < (L'.map (·.page)).length := by rwa [List.length_map]
  have heq : (L.map (·.page))[i] = (L'.map (·.page))[i] := by simp only [hpages]
  rwa [List.getElem_map, List.getElem_map] at heq

/-- Whatever is written, the log grows by the entries that the index follows. -/
theorem LogOf.appended {R : RadixTree} {buf : Memory} {cnt fileOff ret : Nat}
    (h : LogOf A inode r s.mem f L last) (hready : Ready A f s inode) (hb : fileOff + cnt < 2 ^ 64)
    (hrun : nvmioWrite A R s inode buf cnt fileOff = .ok (ret, s')) :
    ret = cnt ∧ ∃ f' f₂ L' last' evs s₁ es,
      LogGrows A (AtfsInode.logHead.get s.mem inode) f f' L last L' last' evs s s₁ ∧
      s'.mem = updateInodeTail s₁.mem inode f'.tail ∧ s'.trace = s₁.trace ∧
      LogAppended L last L' last' es evs ∧ Appended A inode cnt fileOff f f₂ s s' es := by
  obtain ⟨hret, f₂, es₂, happ⟩ := hready.appended hb hrun
  refine ⟨hret, ?_⟩
  obtain ⟨f', L', last', evs, s₁, hgrows, hmem, htrace, es, hnew⟩ : ∃ f' L' last' evs s₁,
      LogGrows A (AtfsInode.logHead.get s.mem inode) f f' L last L' last' evs s s₁ ∧
      s'.mem = updateInodeTail s₁.mem inode f'.tail ∧ s'.trace = s₁.trace ∧
      ∃ es, LogAppended L last L' last' es evs := by
    rcases Nat.eq_zero_or_pos cnt with rfl | hpos
    · obtain ⟨f', L', last', evs, s₁, hgrows, hmem, htrace, hnew, -⟩ := h.write_zero (by omega) hrun
      exact ⟨f', L', last', evs, s₁, hgrows, hmem, htrace, hnew⟩
    · obtain ⟨f', L', last', evs, s₁, hgrows, hmem, htrace, hnew, -⟩ := h.write hpos (by omega)
        (by omega) hrun
      exact ⟨f', L', last', evs, s₁, hgrows, hmem, htrace, hnew⟩
  have hlog := (hgrows.setTail h).1.log
  rw [← hmem] at hlog
  -- the slots are those of the trace, and the memory says what stands in them
  obtain rfl : es = es₂ := by
    refine stored_eq_of_map_off (fun E hE => ?_) happ.stored ?_
    · have hmem : E ∈ entriesIn (L' ++ [last']) := hnew.entriesIn ▸ List.mem_append_right _ hE
      obtain ⟨P, hP, hEP⟩ := mem_entriesIn.1 hmem
      exact (hlog.rep P hP).stored E hEP
    · have hboth : entriesOf s.trace ++ es.map (·.off) = entriesOf s.trace ++ es₂.map (·.off) := by
        rw [← hnew.entriesOf, ← hgrows.recorded.entriesOf, ← htrace, happ.trace]
      exact List.append_cancel_left hboth
  exact ⟨f', f₂, L', last', evs, s₁, es, hgrows, hmem, htrace, hnew, happ⟩

end Grow

end Atfs
