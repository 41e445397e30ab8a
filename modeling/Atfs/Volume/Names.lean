import Atfs.Library.LabelledRun
import Atfs.Volume.Counters

/-!
# Names of data pages

`nvmio_write` notes in the node of a data page which entry the page belongs to, and whoever
overwrites the page finds the entry by that note. `gc_log_block` moves pages to new entries and
leaves the notes as they are.
-/

namespace Atfs

open ByteMemory LinkedChain LabelledRun MarkRuns

/-! ## Live pages -/

/-- The page `q` is page `j` of the entry at `e` on the log page `T` of the inode. -/
structure DataPage (m : Memory) (inode T e j q : Nat) : Prop where
  chain : OnChain m inode T
  entry : e ∈ gcScan m (T + 4096)
  inside : j < FileLogEntry.numPages.get m e
  page : (pageLink m)^[j] (FileLogEntry.data.get m e) = q

/-- It is, and is valid. -/
structure LiveData (m : Memory) (inode T e j q : Nat) : Prop extends DataPage m inode T e j q where
  valid : (FileLogEntry.bitmap.get m e).testBit j = false

/-- `invalidate_old_log_entry` for the entry that the node of the page `q` names. -/
def invalidateNamed (m : Memory) (q pageOff : Nat) : Memory :=
  invalidateOldLogEntry m (ListNode.logEntry.get m (q + 4096)) pageOff

/-- The node of the page `q` leads to its entry: the log page of the entry it names is in use, and
`invalidate_old_log_entry` for that entry marks the page. -/
structure PointsBack (F : Set Nat) (m : Memory) (T e j q : Nat) : Prop where
  name : ListNode.logEntry.get m (q + 4096) = e
  place : logPageOff (ListNode.logEntry.get m (q + 4096)) = T
  inUse : T ∉ F
  marks : ∀ pageOff, invalidatePos m e pageOff = j →
    Invalidated T e j m (invalidateNamed m q pageOff)

/-- Every live page leads to its entry. -/
def Volume.BackPointers (A : PageAllocator) (v : Volume) : Prop :=
  ∃ F, A.Rep v.state.mem F ∧ ∀ x ∈ v.files, ∀ T e j q, LiveData v.state.mem x T e j q →
    PointsBack F v.state.mem T e j q

/-! ## Calls -/

inductive IoCall
  | write (inode : Nat) (buf : Memory) (cnt fileOff : Nat)
  /-- The page at `pageOff` of the file is overwritten, which was the page `q`. -/
  | overwrite (q pageOff : Nat)
  | gc (inode : Nat)

inductive IoStep (A : PageAllocator) (R : RadixTree) : Volume → IoCall → Volume → Prop
  | write {v : Volume} {x cnt fileOff ret : Nat} {buf : Memory} {s : State} (hx : x ∈ v.files)
      (hcnt : cnt < 2 ^ 64) (hb : fileOff < 2 ^ 64)
      (hrun : nvmioWrite A R v.state x buf cnt fileOff = .ok (ret, s)) :
      IoStep A R v (.write x buf cnt fileOff) ⟨s, v.homes, v.files⟩
  | overwrite {v : Volume} {x T e j q pageOff : Nat} (hx : x ∈ v.files)
      (hlive : LiveData v.state.mem x T e j q) (hpos : invalidatePos v.state.mem e pageOff = j) :
      IoStep A R v (.overwrite q pageOff)
        ⟨{ v.state with mem := invalidateNamed v.state.mem q pageOff }, v.homes, v.files⟩
  | gc {v : Volume} {x fuel : Nat} {s : State} (hx : x ∈ v.files)
      (hgc : gcInode A x fuel v.state = .ok s) :
      IoStep A R v (.gc x) ⟨s, v.homes, v.files⟩

/-- No page gets a new entry without its node naming it: a write has bytes to write, or is handed a
page that names the next slot already, and no page is left valid on the log pages that are
collected. -/
def Volume.KeepsNames (A : PageAllocator) (v : Volume) : IoCall → Prop
  | .write x _ cnt _ => cnt = 0 → ∀ node s₁ e t s₂, A.allocFreePages v.state 1 = .ok (node, s₁) →
      getLogEntry A s₁ (AtfsInode.logTail.get v.state.mem x) = .ok (e, t, s₂) →
      ListNode.logEntry.get v.state.mem node = e
  | .overwrite _ _ => True
  | .gc x => ∀ T, OnChain v.state.mem x T → T ≠ logPageOff (AtfsInode.logTail.get v.state.mem x) →
      selected v.state.mem (T + 4096) = true →
      ∀ e ∈ gcScan v.state.mem (T + 4096), allInvalid v.state.mem e = true

/-! ## Names that stay -/

section Named

variable {A : PageAllocator} {inode r : Nat} {m m' : Memory} {f : Frontier} {L : List LogPage}
  {last P : LogPage} {E : LogEntry}

/-- The words of an inode are not in the nodes of data pages. -/
theorem LogOf.named_iff_of_inode (h : LogOf A inode r m' f L last)
    (hm : ChangesOnly (inodeBytes inode) m m') :
    Named m' (L ++ [last]) ↔ Named m (L ++ [last]) := by
  have heq : ∀ q ∈ dataPages (L ++ [last]), Set.EqOn m' m (Set.Ico (q + 4128) (q + 4136)) := by
    intro q hq
    obtain ⟨P, hP, hqP⟩ := mem_dataPages.1 hq
    have hown : q ∈ P.own := List.mem_cons_of_mem _ hqP
    have hne : q ≠ r := by
      rintro rfl
      exact h.apart (mem_owned.2 ⟨P, hP, hown⟩)
    refine (hm.eqOn (h.inodeIn.disjoint_page ((h.log.rep P hP).isPage_own q hown) hne)).mono
      fun a ha => ?_
    rw [Set.mem_Ico] at ha
    rw [mem_pageBytes]
    omega
  exact ⟨fun hnamed => hnamed.congr fun q hq => (heq q hq).symm, fun hnamed => hnamed.congr heq⟩

/-- Writing to a log page changes no name. -/
theorem LogOf.named_of_logPage (h : LogOf A inode r m f L last) (hP : P ∈ L ++ [last])
    (hm : ChangesOnly (pageBytes P.page) m m') (hnamed : Named m (L ++ [last])) :
    Named m' (L ++ [last]) := by
  refine hnamed.congr fun q hq => hm.eqOn (Set.disjoint_left.2 fun a ha hc => ?_)
  obtain ⟨Q, hQ, hqQ⟩ := mem_dataPages.1 hq
  have hne : P.page ≠ q := by
    rintro rfl
    exact page_notMem_pagesOf h.log.nodup hP hQ hqQ
  have := (h.log.rep P hP).isPage.apart ((h.log.rep Q hQ).isPage_own q (List.mem_cons_of_mem _ hqQ))
    hne
  rw [mem_pageBytes] at ha
  rw [Set.mem_Ico] at hc
  omega

/-- With one more page marked there are fewer pages to name their entries. -/
theorem Named.mark {Ps : List LogPage} (h : Named m Ps) (e pos : Nat) :
    Named m (Ps.map (·.mark e pos)) := by
  intro P' hP' N hN i q hq hbit
  obtain ⟨P, hP, rfl⟩ := List.mem_map.1 hP'
  obtain ⟨E, hE, rfl⟩ := List.mem_map.1 hN
  rw [LogEntry.mark_pages] at hq
  rw [LogEntry.mark_off]
  refine h P hP E hE i q hq ?_
  split_ifs at hbit
  · rw [LogEntry.invalid, LogEntry.mark, Nat.testBit_or, Bool.or_eq_false_iff] at hbit
    exact hbit.1
  · exact hbit

/-- No page of the entries is left valid just if there is no run of valid pages. -/
theorem LogPage.Rep.allInvalid_iff (h : P.Rep m) :
    (∀ e ∈ gcScan m (P.page + 4096), allInvalid m e = true) ↔ runsOf P.entries = [] := by
  have hbit {E : LogEntry} (hE : E ∈ P.entries) {i : Nat} (hi : i < E.pages.length) :
      entryInvalidPage m E.off i = E.invalid i := by
    have hstored := h.stored E hE
    have hle := hstored.le
    exact entryInvalidPage_eq hstored.words (by omega)
  simp only [h.countersAgree.scan, List.mem_map, forall_exists_index, and_imp,
    forall_apply_eq_imp_iff₂, allInvalid, List.all_eq_true, List.mem_range,
    List.eq_nil_iff_forall_not_mem]
  constructor
  · rintro hall ⟨E, k, j⟩ hr
    obtain ⟨hE, hrun⟩ := mem_runsOf.1 hr
    have hk : k < E.pages.length := hrun.lt.trans_le hrun.le
    have hset := hall E hE k (by rwa [(h.stored E hE).words.numPages])
    rw [hbit hE hk, hrun.clear k le_rfl hrun.lt] at hset
    cases hset
  · intro hnone E hE i hi
    rw [(h.stored E hE).words.numPages] at hi
    rw [hbit hE hi]
    by_contra hclear
    obtain ⟨k, j, hrun, -, -⟩ := exists_clearRun hi (Bool.not_eq_true _ ▸ hclear)
    exact hnone (E, k, j) (mem_runsOf.2 ⟨hE, hrun⟩)

/-- Collecting a log leaves its pages named just if no valid page has been moved. -/
theorem Repacked.named_iff {head head' : Nat} {f' : Frontier} {Z : List LogPage} {last' : LogPage}
    {evs : List Event} (h : Repacked [] L [] Z last last' m m' evs) (hlog : LogRep m head f L last)
    (hlog' : LogRep m' head' f' (L.filter (!·.picked) ++ Z) last')
    (hnamed : Named m (L ++ [last])) :
    Named m' (L.filter (!·.picked) ++ Z ++ [last']) ↔ ∀ P ∈ L, P.picked = true →
      runsOf P.entries = [] := by
  have hword : ∀ q ∈ dataPages (L.filter (!·.picked) ++ Z ++ [last']),
      Set.EqOn m' m (Set.Ico (q + 4128) (q + 4136)) := h.logEntry
  constructor
  · intro hnamed' P hP hpick
    refine List.eq_nil_iff_forall_not_mem.2 ?_
    rintro ⟨E, k, j⟩ hr
    obtain ⟨hE, hrun⟩ := mem_runsOf.1 hr
    have hk : k < E.pages.length := hrun.lt.trans_le hrun.le
    have hPall : P ∈ L ++ [last] := List.mem_append_left _ hP
    have hvalid := hrun.clear k le_rfl hrun.lt
    obtain ⟨q, hq⟩ : ∃ q, E.pages[k]? = some q := ⟨_, List.getElem?_eq_getElem hk⟩
    obtain ⟨Q, hQ, hne, N, hN, hqN, hzero⟩ := h.moved P hP hpick E hE k q hq hvalid
    have hQall : Q ∈ L.filter (!·.picked) ++ Z ++ [last'] := by
      rw [List.append_assoc]
      exact List.mem_append_right _ hQ
    obtain ⟨i, hi, hiq⟩ := List.getElem_of_mem hqN
    have hnew := hnamed' Q hQall N hN i q (List.getElem?_eq_some_iff.2 ⟨hi, hiq⟩) (by
      rw [LogEntry.invalid, hzero, Nat.zero_testBit])
    have hold := hnamed P hPall E hE k q hq hvalid
    -- the node names the old entry, on a page of its own
    have hsame : ListNode.logEntry.get m' (q + 4096) = ListNode.logEntry.get m (q + 4096) := by
      refine Field.get_congr fun a ha => hword q ?_ ?_
      · exact mem_dataPages.2 ⟨Q, hQall, mem_pagesOf.2 ⟨N, hN, hqN⟩⟩
      · simp only [Field.bytes, ListNode.logEntry_off, ListNode.logEntry_size, Set.mem_Ico] at ha
        rw [Set.mem_Ico]
        omega
    refine hne ?_
    rw [← (hlog'.rep Q hQall).logPageOff_eq hN, ← hnew, hsame, hold,
      (hlog.rep P hPall).logPageOff_eq hE]
  · intro hnone
    obtain ⟨rfl, rfl⟩ := h.idle hnone
    refine Named.congr (fun P hP => hnamed P ?_) hword
    rw [List.append_nil] at hP
    exact (List.filter_sublist.append_right _).subset hP

end Named

/-! ## One call -/

namespace Volume

section Step

variable {A : PageAllocator} {R : RadixTree} {F : Set Nat} {logs : Nat → FileLog} {v v' : Volume}
  {s : State} {c : IoCall} {steps : List (Volume × IoCall)} {x T e j q : Nat}

/-- The data pages of an inode are the pages of the entries of its log. -/
theorem Sound.dataPage_iff (h : v.Sound A F logs) (hx : x ∈ v.files) :
    DataPage v.state.mem x T e j q ↔ ∃ P ∈ (logs x).all, P.page = T ∧ ∃ E ∈ P.entries, E.off = e ∧
      E.pages[j]? = some q := by
  constructor
  · rintro ⟨hchain, hentry, hin, rfl⟩
    obtain ⟨P, hP, rfl⟩ := (h.onChain_iff hx).1 hchain
    have hrep := (h.log x hx).log.rep P hP
    rw [hrep.countersAgree.scan] at hentry
    obtain ⟨E, hE, rfl⟩ := List.mem_map.1 hentry
    have hstored := hrep.stored E hE
    rw [hstored.words.numPages] at hin
    refine ⟨P, hP, rfl, E, hE, rfl, ?_⟩
    rw [hstored.words.data, hstored.chain.chain.iterate hin, List.getElem?_eq_getElem hin]
  · rintro ⟨P, hP, rfl, E, hE, rfl, hq⟩
    have hrep := (h.log x hx).log.rep P hP
    have hstored := hrep.stored E hE
    obtain ⟨hj, rfl⟩ := List.getElem?_eq_some_iff.1 hq
    refine ⟨(h.onChain_iff hx).2 ⟨P, hP, rfl⟩, ?_, ?_, ?_⟩
    · rw [hrep.countersAgree.scan]
      exact List.mem_map_of_mem hE
    · rwa [hstored.words.numPages]
    · rw [hstored.words.data, hstored.chain.chain.iterate hj]

/-- Its live pages are the valid ones of them. -/
theorem Sound.liveData_iff (h : v.Sound A F logs) (hx : x ∈ v.files) :
    LiveData v.state.mem x T e j q ↔ ∃ P ∈ (logs x).all, P.page = T ∧ ∃ E ∈ P.entries, E.off = e ∧
      E.pages[j]? = some q ∧ E.invalid j = false := by
  constructor
  · rintro ⟨hdata, hvalid⟩
    obtain ⟨P, hP, rfl, E, hE, rfl, hq⟩ := (h.dataPage_iff hx).1 hdata
    rw [(((h.log x hx).log.rep P hP).stored E hE).words.bitmap] at hvalid
    exact ⟨P, hP, rfl, E, hE, rfl, hq, hvalid⟩
  · rintro ⟨P, hP, rfl, E, hE, rfl, hq, hvalid⟩
    refine ⟨(h.dataPage_iff hx).2 ⟨P, hP, rfl, E, hE, rfl, hq⟩, ?_⟩
    rw [(((h.log x hx).log.rep P hP).stored E hE).words.bitmap]
    exact hvalid

theorem Sound.pointBack_iff (h : v.Sound A F logs) :
    v.BackPointers A ↔ ∀ x ∈ v.files, Named v.state.mem (logs x).all := by
  constructor
  · rintro ⟨F', -, hback⟩ x hx P hP E hE i q hq hvalid
    exact (hback x hx _ _ _ _ ((h.liveData_iff hx).2 ⟨P, hP, rfl, E, hE, rfl, hq, hvalid⟩)).name
  · intro hnamed
    refine ⟨F, h.rep, fun x hx T e j q hlive => ?_⟩
    obtain ⟨P, hP, rfl, E, hE, rfl, hq, hvalid⟩ := (h.liveData_iff hx).1 hlive
    have hrep := (h.log x hx).log.rep P hP
    have hname := hnamed x hx P hP E hE j q hq hvalid
    obtain ⟨i, hi, hoff⟩ := hrep.slot_bounds hE
    have hj := (List.getElem?_eq_some_iff.1 hq).1
    have hle := (hrep.stored E hE).le
    refine ⟨hname, ?_, h.own_notFree hx _ (mem_owned_page hP), fun pageOff hpos => ?_⟩
    · rw [hname]
      exact hrep.isPage.logPageOff_eq (by rw [mem_pageBytes]; omega)
    · rw [invalidateNamed, hname]
      exact invalidateOldLogEntry_spec hrep.isPage (by omega) (by omega) hpos (by omega)

/-- A call for the inode `x` leaves the names of all other files. -/
theorem Sound.named_iff {l' : FileLog} {m' : Memory} (h : v.Sound A F logs) (hx : x ∈ v.files)
    (hframe : ChangesOnly (logBytes ((logs x).frontier F) x (logs x).own) v.state.mem m')
    (hnamed : ∀ y ∈ v.files, Named v.state.mem (logs y).all) :
    (∀ y ∈ v.files, Named m' (Function.update logs x l' y).all) ↔ Named m' l'.all := by
  refine ⟨fun hall => by simpa using hall x hx, fun hself y hy => ?_⟩
  by_cases hyx : y = x
  · rw [hyx, Function.update_self]
    exact hself
  · rw [Function.update_of_ne hyx]
    refine (hnamed y hy).congr fun q hq => ?_
    obtain ⟨P, hP, hqP⟩ := mem_dataPages.1 hq
    have hown : q ∈ (logs y).own := mem_owned.2 ⟨P, hP, List.mem_cons_of_mem _ hqP⟩
    refine ((h.keeps_other hx hy hyx hframe).1 q hown).mono fun a ha => ?_
    rw [Set.mem_Ico] at ha
    rw [mem_pageBytes]
    omega

/-- A file that grows: the names of all files are kept just if those of its own pages are. -/
theorem Sound.grow_names {L' : List LogPage} {last' : LogPage} {f' : Frontier} {evs : List Event}
    {s₁ : State} (h : v.Sound A F logs) (hx : x ∈ v.files)
    (hgrows : LogGrows A (AtfsInode.logHead.get v.state.mem x)
      ((logs x).frontier F) f' (logs x).pages
      (logs x).last L' last' evs v.state s₁)
    (hmem : s.mem = updateInodeTail s₁.mem x f'.tail) (htrace : s.trace = s₁.trace)
    (hnamed : ∀ y ∈ v.files, Named v.state.mem (logs y).all) :
    ∃ F' logs', Volume.Sound A F' logs' ⟨s, v.homes, v.files⟩ ∧
      ((∀ y ∈ v.files, Named s.mem (logs' y).all) ↔ Named s₁.mem (L' ++ [last'])) := by
  obtain ⟨h', hframe⟩ := h.grow hx hgrows hmem htrace
  refine ⟨_, _, h', (h.named_iff hx hframe hnamed).trans ?_⟩
  have hchange : ChangesOnly (inodeBytes x) s₁.mem s.mem := hmem ▸ AtfsInode.changesOnly _ _ _ _
  have hlog := (hgrows.setTail (h.log x hx)).1
  rw [← hmem] at hlog
  exact hlog.named_iff_of_inode hchange

theorem Sound.write_names {buf : Memory} {cnt fileOff ret : Nat} (h : v.Sound A F logs)
    (hx : x ∈ v.files) (hcnt : cnt < 2 ^ 64) (hb : fileOff < 2 ^ 64)
    (hrun : nvmioWrite A R v.state x buf cnt fileOff = .ok (ret, s))
    (hnamed : ∀ y ∈ v.files, Named v.state.mem (logs y).all) :
    ∃ F' logs', Volume.Sound A F' logs' ⟨s, v.homes, v.files⟩ ∧
      ((∀ y ∈ v.files, Named s.mem (logs' y).all) ↔ v.KeepsNames A (.write x buf cnt fileOff)) := by
  rcases Nat.eq_zero_or_pos cnt with rfl | hpos
  · obtain ⟨f', L', last', evs, s₁, hgrows, hmem, htrace, -, q, sa, e, sb, halloc, hentry, hiff⟩ :=
      (h.log x hx).write_zero hb hrun
    obtain ⟨F', logs', h', hnames⟩ := h.grow_names hx hgrows hmem htrace hnamed
    refine ⟨F', logs', h',
      hnames.trans ((hiff (hnamed x hx)).trans ⟨fun heq => ?_, fun hkeeps => ?_⟩)⟩
    · intro _ node s₂ e' t s₃ halloc' hentry'
      obtain ⟨rfl, rfl⟩ : q + 4096 = node ∧ sa = s₂ := by simpa using halloc.symm.trans halloc'
      obtain ⟨rfl, -⟩ : e = e' ∧ _ := by simpa using hentry.symm.trans hentry'
      exact heq
    · exact hkeeps rfl _ _ _ _ _ halloc hentry
  · obtain ⟨f', L', last', evs, s₁, hgrows, hmem, htrace, -, hkeep⟩ :=
      (h.log x hx).write hpos hcnt hb hrun
    obtain ⟨F', logs', h', hnames⟩ := h.grow_names hx hgrows hmem htrace hnamed
    exact ⟨F', logs', h', hnames.trans (iff_of_true (hkeep (hnamed x hx)) fun hzero => by omega)⟩

/-- A page overwritten: the log has it marked, the names are left, and so are the free pages. -/
theorem Sound.overwrite_names {pageOff : Nat} (h : v.Sound A F logs) (hx : x ∈ v.files)
    (hlive : LiveData v.state.mem x T e j q) (hpos : invalidatePos v.state.mem e pageOff = j)
    (hnamed : ∀ y ∈ v.files, Named v.state.mem (logs y).all) :
    Volume.Sound A F (Function.update logs x ((logs x).mark e j))
        ⟨{ v.state with mem := invalidateNamed v.state.mem q pageOff }, v.homes, v.files⟩ ∧
      (∀ y ∈ v.files, Named (invalidateNamed v.state.mem q pageOff)
        (Function.update logs x ((logs x).mark e j) y).all) ∧
      ∀ n, A.Lasts n v.state.mem → A.Lasts n (invalidateNamed v.state.mem q pageOff) := by
  have hinside : LivePage v.state.mem e pageOff := ⟨hpos ▸ hlive.inside, hpos ▸ hlive.valid⟩
  obtain ⟨P, hP, rfl, E, hE, rfl, hq, hvalid⟩ := (h.liveData_iff hx).1 hlive
  rw [invalidateNamed, hnamed x hx P hP E hE j q hq hvalid]
  obtain ⟨pos, hpos', h', hframe⟩ := h.mark hx hP hE hinside
  obtain rfl : pos = j := hpos'.symm.trans hpos
  generalize invalidateOldLogEntry v.state.mem E.off pageOff = m at h' hframe
  refine ⟨h', ?_, fun n hlast => hlast.congr h.rep ?_⟩
  · have hwide : ChangesOnly (logBytes ((logs x).frontier F) x (logs x).own) v.state.mem m :=
      hframe.mono fun a ha => .inl (.inr ⟨P.page, .inr (mem_owned_page hP), ha⟩)
    refine (h.named_iff hx hwide hnamed).2 ?_
    rw [FileLog.all_mark]
    exact ((h.log x hx).named_of_logPage hP hframe (hnamed x hx)).mark E.off pos
  · exact eqOn_of_inUse (A.rep_page h.rep) hframe fun a ha =>
      ⟨P.page, ((h.log x hx).log.rep P hP).isPage, h.own_notFree hx _ (mem_owned_page hP), ha⟩

/-- The pages on the chain in front of its last one. -/
theorem Sound.onChain_front_iff (h : v.Sound A F logs) (hx : x ∈ v.files) :
    (OnChain v.state.mem x T ∧ T ≠ logPageOff (AtfsInode.logTail.get v.state.mem x)) ↔
      ∃ P ∈ (logs x).pages, P.page = T := by
  have hlog := h.log x hx
  have hlast : logPageOff (AtfsInode.logTail.get v.state.mem x) = (logs x).last.page := by
    have hle := hlog.holds.le_tail
    have hle' := hlog.holds.tail_le
    rw [hlog.tail, ← hlog.log.page]
    exact hlog.holds.isPage.logPageOff_eq (by rw [mem_pageBytes]; omega)
  have hnodup := (pages_sublist_owned _).nodup hlog.log.nodup
  rw [List.map_append, List.map_singleton] at hnodup
  have hnotMem : (logs x).last.page ∉ (logs x).pages.map (·.page) := fun hc =>
    (List.nodup_append'.1 hnodup).2.2 hc (List.mem_singleton_self _)
  rw [h.onChain_iff hx, hlast]
  constructor
  · rintro ⟨⟨P, hP, rfl⟩, hne⟩
    rcases List.mem_append.1 hP with hP | hP
    · exact ⟨P, hP, rfl⟩
    · exact absurd (congrArg LogPage.page (List.mem_singleton.1 hP)) hne
  · rintro ⟨P, hP, rfl⟩
    exact ⟨⟨P, List.mem_append_left _ hP, rfl⟩, fun hc => hnotMem (hc ▸ List.mem_map_of_mem hP)⟩

/-- A collection keeps the names just if there is no run of valid pages on the pages picked. -/
theorem Sound.keepsNames_gc_iff (h : v.Sound A F logs) (hx : x ∈ v.files) :
    v.KeepsNames A (.gc x) ↔ ∀ P ∈ (logs x).pages, P.picked = true → runsOf P.entries = [] := by
  have hrep {P : LogPage} (hP : P ∈ (logs x).pages) : P.Rep v.state.mem :=
    (h.log x hx).log.rep P (List.mem_append_left _ hP)
  constructor
  · intro hkeeps P hP hpick
    obtain ⟨hT, hne⟩ := (h.onChain_front_iff hx).2 ⟨P, hP, rfl⟩
    exact (hrep hP).allInvalid_iff.1 (hkeeps P.page hT hne ((hrep hP).selected_eq ▸ hpick))
  · intro hnone T hT hne hsel
    obtain ⟨P, hP, rfl⟩ := (h.onChain_front_iff hx).1 ⟨hT, hne⟩
    exact (hrep hP).allInvalid_iff.2 (hnone P hP ((hrep hP).selected_eq ▸ hsel))

theorem Sound.gc_names {fuel : Nat} (h : v.Sound A F logs) (hx : x ∈ v.files)
    (hgc : gcInode A x fuel v.state = .ok s)
    (hnamed : ∀ y ∈ v.files, Named v.state.mem (logs y).all) :
    ∃ F' logs', Volume.Sound A F' logs' ⟨s, v.homes, v.files⟩ ∧
      ((∀ y ∈ v.files, Named s.mem (logs' y).all) ↔ v.KeepsNames A (.gc x)) := by
  obtain ⟨F', Z, last', evs, hpack, h', hframe, -, -⟩ := h.gc_repacked hx hgc
  have hlog := (h'.log x hx).log
  rw [Function.update_self] at hlog
  exact ⟨F', _, h', (h.named_iff hx hframe hnamed).trans ((hpack.named_iff (h.log x hx).log hlog
    (hnamed x hx)).trans (h.keepsNames_gc_iff hx).symm)⟩

/-- A collection with nothing to move takes no pages. -/
theorem Sound.gc_idle {n : Nat} (h : v.Sound A F logs) (hx : x ∈ v.files)
    (hnone : ∀ P ∈ (logs x).pages, runsOf P.entries = []) (hlast : A.Lasts n v.state.mem) :
    ∃ fuel s, gcInode A x fuel v.state = .ok s ∧ A.Lasts n s.mem := by
  have hzero : sweepPages (logs x).pages = 0 := by
    refine List.sum_eq_zero fun k hk => ?_
    obtain ⟨P, hP, rfl⟩ := List.mem_map.1 hk
    rw [hnone P (List.mem_filter.1 hP).1]
    rfl
  rcases (h.log x hx).gcInode (Nat.lt_succ_self _) with hfail | ⟨s, -, -, -, -, hok, -, -, -, -, hk⟩
  · exact absurd (hlast.mono (hzero ▸ Nat.zero_le n)) hfail.2
  · exact ⟨_, s, hok, hk n (hzero ▸ hlast)⟩

/-- A call leaves every file its log, and the names of the live pages just if it keeps them. -/
theorem Sound.io_step (h : v.Sound A F logs) (hback : v.BackPointers A)
    (hstep : IoStep A R v c v') :
    ∃ F' logs', v'.Sound A F' logs' ∧ (v'.BackPointers A ↔ v.KeepsNames A c) := by
  have hnamed := h.pointBack_iff.1 hback
  cases hstep with
  | write hx hcnt hb hrun =>
    obtain ⟨F', logs', h', hiff⟩ := h.write_names hx hcnt hb hrun hnamed
    exact ⟨F', logs', h', h'.pointBack_iff.trans hiff⟩
  | @overwrite x T e j q pageOff hx hlive hpos =>
    obtain ⟨h', hnamed', -⟩ := h.overwrite_names hx hlive hpos hnamed
    generalize invalidateNamed v.state.mem q pageOff = m at h' hnamed' ⊢
    exact ⟨F, _, h', fun _ => True.intro, fun _ => h'.pointBack_iff.2 hnamed'⟩
  | gc hx hgc =>
    obtain ⟨F', logs', h', hiff⟩ := h.gc_names hx hgc hnamed
    exact ⟨F', logs', h', h'.pointBack_iff.trans hiff⟩

end Step

/-! ## A log to collect with its names -/

section Sparse

variable {n i : Nat} {m : Memory}

/-- The valid pages of the entries of `sparsePage` name their entries. -/
def nameSparse (m : Memory) : Nat → Memory
  | 0 => m
  | n + 1 =>
    ListNode.logEntry.set (nameSparse m n) (pageOff (4158 + 64 * n) + 4096) (sparseEntry n).off

/-- The events that have made the log: its first page, the entries on it, and the page behind it. -/
def sparseTrace (n : Nat) : List Event :=
  .logPage (pageOff 4098) ::
    ((List.range n).reverse.map fun i => .logEntry (sparseEntry i).off) ++ [.logPage (pageOff 4097)]

/-- The file of `sparseState` with the names of its pages. -/
def sparseVolume (n : Nat) : Volume where
  state := { sparseState n with mem := nameSparse (sparseState n).mem n, trace := sparseTrace n }
  homes := [pageOff 4096]
  files := [fileInode]

theorem changesOnly_nameSparse (m : Memory) (n : Nat) :
    ChangesOnly {a | ∃ i < n, a ∈ Set.Ico (pageOff (4158 + 64 * i) + 4128)
      (pageOff (4158 + 64 * i) + 4136)} m
      (nameSparse m n) := by
  induction n with
  | zero => exact fun a _ => rfl
  | succ n ih =>
    have hbefore := ih.mono fun a ⟨i, hi, ha⟩ =>
      show ∃ i < n + 1, a ∈ Set.Ico (pageOff (4158 + 64 * i) + 4128)
        (pageOff (4158 + 64 * i) + 4136) from
        ⟨i, hi.trans (Nat.lt_succ_self n), ha⟩
    refine hbefore.trans ((ListNode.logEntry.changesOnly_set _ _ _).mono fun a ha => ?_)
    refine ⟨n, Nat.lt_succ_self n, ?_⟩
    simpa [Field.bytes, Nat.add_assoc] using ha

theorem logEntry_nameSparse (hi : i < n) (hn : n ≤ 85) :
    ListNode.logEntry.get (nameSparse m n) (pageOff (4158 + 64 * i) + 4096) =
      (sparseEntry i).off := by
  induction n with
  | zero => omega
  | succ n ih =>
    rcases Nat.lt_succ_iff_lt_or_eq.1 hi with hlt | rfl
    · refine (Field.get_set_of_apart _ _ _ ?_).trans (ih hlt (by omega))
      rw [pageOff_eq, pageOff_eq]
      omega
    · refine Field.get_set_self_of_lt _ _ ?_
      have h1 := pageOff_eq 4097
      change pageOff 4097 + 48 * i < 256 ^ 8
      omega

/-- No name stands in the page of the entries, in the inode, in the links or in a free page. -/
theorem nameSparse_apply {a : Nat} (h : a < pageOff 4158 ∨ ∃ k, a < pageOff k + 4112 ∧
      pageOff k ≤ a) :
    nameSparse m n a = m a := by
  refine changesOnly_nameSparse m n a ?_
  rintro ⟨i, hi, ha⟩
  rw [Set.mem_Ico] at ha
  rw [pageOff_eq] at *
  rcases h with h | ⟨k, h⟩
  · omega
  · rw [pageOff_eq] at h
    omega

theorem sparseVolume_logOf (hn : n ≤ 85) : LogOf pageAllocator fileInode (pageOff 4096)
    (sparseVolume n).state.mem sparseFrontier [sparsePage n] ⟨pageOff 4098, []⟩ := by
  have h := sparse_logOf hn
  have hname {a : Nat} (ha : a < pageOff 4158) : (sparseVolume n).state.mem a =
      (sparseState n).mem a :=
    nameSparse_apply (.inl ha)
  have h1 := pageOff_eq 4096
  have h2 := pageOff_eq 4097
  have h3 := pageOff_eq 4098
  have h4 := pageOff_eq 4158
  have hpages {P : LogPage} (hP : P ∈ [sparsePage n, ⟨pageOff 4098, []⟩]) :
      P.page + 4136 ≤ pageOff 4158 := by
    rcases List.mem_cons.1 hP with rfl | hP
    · change pageOff 4097 + 4136 ≤ _
      omega
    · obtain rfl := List.mem_singleton.1 hP
      change pageOff 4098 + 4136 ≤ _
      omega
  have hrep : ∀ P ∈ [sparsePage n, ⟨pageOff 4098, []⟩], P.Rep (sparseVolume n).state.mem := by
    intro P hP
    refine (h.log.rep P hP).congr_nodes (fun a ha => hname ?_) fun q hq a ha =>
      nameSparse_apply (.inr ?_)
    · have := hpages hP
      have ha := ha.1
      rw [mem_pageBytes] at ha
      omega
    · obtain ⟨k, -, rfl⟩ := (h.log.rep P hP).isPage_own q (List.mem_cons_of_mem _ hq)
      rw [Set.mem_Ico] at ha
      exact ⟨k, by omega, by omega⟩
  have hword (g : Field 216) : g.get (sparseVolume n).state.mem fileInode =
      g.get (sparseState n).mem fileInode := by
    have := g.fits
    refine Field.get_congr fun a ha => hname ?_
    rw [Field.bytes, Set.mem_Ico, fileInode] at ha
    omega
  refine ⟨?_, ⟨?_, hrep, h.log.page, h.log.tail, h.log.nodup, h.log.inUse⟩, ?_, h.inodeIn,
    h.inUse, h.apart⟩
  · refine h.holds.of_inUse (changesOnly_nameSparse _ n) ?_
    rintro a ⟨i, hi, ha⟩
    rw [Set.mem_Ico] at ha
    exact ⟨pageOff (4158 + 64 * i), isPage_pageOff (by omega), sparse_not_free (by omega), by
      rw [mem_pageBytes]
      omega⟩
  · rw [hword]
    refine h.log.chain.congr fun p hp => ?_
    obtain ⟨P, hP, rfl⟩ := List.mem_map.1 hp
    have hP' : P ∈ [sparsePage n, ⟨pageOff 4098, []⟩] := List.mem_append_left _ hP
    refine (h.log.rep P hP').isPage.pageLink_congr fun a ha => (hname ?_).symm
    have := hpages hP'
    rw [Set.mem_Ico] at ha
    omega
  · rw [hword]
    exact h.tail

theorem sparseVolume_named (hn : n ≤ 85) :
    Named (sparseVolume n).state.mem ([sparsePage n] ++ [⟨pageOff 4098, []⟩]) := by
  intro P hP E hE j q hq hvalid
  rcases List.mem_cons.1 hP with rfl | hP
  · obtain ⟨i, hi, rfl⟩ := List.mem_map.1 hE
    obtain ⟨hj, rfl⟩ := List.getElem?_eq_some_iff.1 hq
    -- of the three pages only the second is valid
    obtain rfl : j = 1 := by
      have hbits : ∀ j < 3, Nat.testBit 5 j = false → j = 1 := by decide
      exact hbits j hj hvalid
    exact logEntry_nameSparse (List.mem_range.1 hi) hn
  · obtain rfl := List.mem_singleton.1 hP
    cases hE

theorem sparseVolume_joined (hn : n ≤ 85) :
    Joined (sparseVolume n).state.trace ([sparsePage n] ++ [⟨pageOff 4098, []⟩]) := by
  have hne : pageOff 4098 ≠ pageOff 4097 := fun hc => absurd (pageOff_injective hc) (by decide)
  have hplace (i : Nat) (hi : i < n) : logPageOff (sparseEntry i).off = pageOff 4097 :=
    sparsePage_isPage.logPageOff_eq (show pageOff 4097 + 48 * i ∈ pageBytes (pageOff 4097) by
      rw [mem_pageBytes]
      omega)
  have hentries : ∀ k ≤ n, sinceJoined (pageOff 4097)
      (((List.range k).reverse.map fun i => .logEntry (sparseEntry i).off) ++
        [.logPage (pageOff 4097)]) =
        (List.range k).map fun i => (sparseEntry i).off := by
    intro k hk
    induction k with
    | zero => simp [sinceJoined]
    | succ k ih =>
      rw [List.range_succ, List.reverse_append, List.reverse_singleton, List.singleton_append,
        List.map_cons, List.cons_append, sinceJoined, if_pos (hplace k (by omega)), ih (by omega),
        List.map_append, List.map_singleton]
  intro P hP
  rcases List.mem_cons.1 hP with rfl | hP
  · have hall := hentries n le_rfl
    change sinceJoined (pageOff 4097) (.logPage (pageOff 4098) :: _) = _
    rw [sinceJoined, if_neg hne]
    refine hall.trans ?_
    simp [sparsePage]
  · obtain rfl := List.mem_singleton.1 hP
    change sinceJoined (pageOff 4098) (.logPage (pageOff 4098) :: _) = _
    rw [sinceJoined, if_pos rfl]
    rfl

def sparseLogs (n : Nat) : Nat → FileLog :=
    fun _ => ⟨pageOff 4096, [sparsePage n], ⟨pageOff 4098, []⟩⟩

theorem sparseLogs_frontier (n x : Nat) :
    (sparseLogs n x).frontier sparseFrontier.free = sparseFrontier := by
  rw [FileLog.frontier, sparseLogs, sparseFrontier, List.length_nil, Nat.mul_zero, Nat.add_zero]

theorem sparseVolume_sound (hn : n ≤ 85) :
    (sparseVolume n).Sound pageAllocator sparseFrontier.free (sparseLogs n) where
  rep := (sparseVolume_logOf hn).holds.rep
  log := fun x hx => by
    obtain rfl := List.mem_singleton.1 hx
    rw [sparseLogs_frontier]
    exact sparseVolume_logOf hn
  joined := fun x hx => sparseVolume_joined hn
  home := fun p hp => by
    obtain rfl := List.mem_singleton.1 hp
    exact ⟨isPage_pageOff (by omega), sparse_not_free le_rfl,
      fun x hx => (sparseVolume_logOf hn).apart⟩
  homes := fun x hx => List.mem_singleton_self _
  disjoint := fun x hx y hy hne =>
    absurd ((List.mem_singleton.1 hx).trans (List.mem_singleton.1 hy).symm) hne
  apart := fun x hx y hy hne =>
    absurd ((List.mem_singleton.1 hx).trans (List.mem_singleton.1 hy).symm) hne

theorem sparseVolume_backPointers (hn : n ≤ 85) : (sparseVolume n).BackPointers pageAllocator :=
  (sparseVolume_sound hn).pointBack_iff.2 fun _ _ => sparseVolume_named hn

theorem sparseVolume_lasts (hn : n ≤ 85) :
    pageAllocator.Lasts 64 (sparseVolume n).state.mem := by
  have hF : pageAllocator.Rep (sparseState n).mem sparseFrontier.free := sparseFrontier_holds.rep
  refine (sparseState_lasts pageAllocator_follows n).congr hF ?_
  refine eqOn_of_inUse (pageAllocator.rep_page hF) (changesOnly_nameSparse _ n) ?_
  rintro a ⟨i, hi, ha⟩
  rw [Set.mem_Ico] at ha
  exact ⟨_, isPage_pageOff (k := 4158 + 64 * i) (by omega), sparse_not_free (by omega), by omega,
    by omega⟩

/-- Of the one entry of `sparseVolume 1` the page in the middle is live. -/
theorem sparseVolume_live : LiveData (sparseVolume 1).state.mem fileInode (pageOff 4097)
    (pageOff 4097) 1 (pageOff 4158) := by
  have hs := sparseVolume_sound (n := 1) (by decide)
  refine (hs.liveData_iff (List.mem_singleton_self _)).2 ⟨sparsePage 1, ?_, rfl, sparseEntry 0, ?_,
    rfl, rfl, by decide⟩
  · simp [sparseLogs, FileLog.all]
  · simp [sparsePage]

theorem sparseVolume_invalidatePos :
    invalidatePos (sparseVolume 1).state.mem (pageOff 4097) 4096 = 1 := by
  have hrep := (sparseVolume_logOf (n := 1) (by decide)).log.rep (sparsePage 1) (by simp)
  have hstart := (hrep.stored (sparseEntry 0) (by simp [sparsePage])).words.startWriteOff
  have hzero :
      FileLogEntry.startWriteOff.get (sparseVolume 1).state.mem (pageOff 4097) = 0 := hstart
  rw [invalidatePos, hzero]
  decide

/-- With that page marked no page of the entry is valid. -/
theorem runsOf_sparse_mark : runsOf ((sparsePage 1).mark (pageOff 4097) 1).entries = [] := by
  refine List.eq_nil_iff_forall_not_mem.2 ?_
  rintro ⟨E, k, j⟩ hr
  obtain ⟨hE, hrun⟩ := mem_runsOf.1 hr
  have hclear := hrun.clear k le_rfl hrun.lt
  have hk := hrun.lt.trans_le hrun.le
  obtain rfl : E = (sparseEntry 0).mark 1 := by
    simpa [sparsePage, LogPage.mark, sparseEntry] using hE
  have hbits : ∀ k < 3, Nat.testBit (5 ||| 1 <<< 1) k = true := by decide
  exact absurd ((hbits k hk).symm.trans hclear) (by decide)

/-- Once it is overwritten there is nothing on the page to move. -/
theorem sparseVolume_overwritten : ∃ v F logs, v.Sound pageAllocator F logs ∧
    IoStep pageAllocator radixTree (sparseVolume 1) (.overwrite (pageOff 4158) 4096) v ∧
    v.files = [fileInode] ∧ (∀ P ∈ (logs fileInode).pages, runsOf P.entries = []) ∧
    pageAllocator.Lasts 64 v.state.mem := by
  have hs := sparseVolume_sound (n := 1) (by decide)
  have hnamed := hs.pointBack_iff.1 (sparseVolume_backPointers (n := 1) (by decide))
  have hx : fileInode ∈ (sparseVolume 1).files := List.mem_singleton_self _
  obtain ⟨hs', -, hlast⟩ := hs.overwrite_names hx sparseVolume_live sparseVolume_invalidatePos
    hnamed
  have hleft := hlast _ (sparseVolume_lasts (n := 1) (by decide))
  have hstep := IoStep.overwrite (A := pageAllocator) (R := radixTree) hx sparseVolume_live
    sparseVolume_invalidatePos
  generalize invalidateNamed (sparseVolume 1).state.mem (pageOff 4158) 4096 = m at hs' hleft hstep
  refine ⟨_, _, _, hs', hstep, rfl, ?_, hleft⟩
  intro P hP
  rw [Function.update_self] at hP
  have hP : P ∈ [(sparsePage 1).mark (pageOff 4097) 1] := hP
  rw [List.mem_singleton.1 hP]
  exact runsOf_sparse_mark

end Sparse

/-! ## Runs -/

section Runs

variable {A : PageAllocator} {R : RadixTree} {F : Set Nat} {logs : Nat → FileLog} {v v₀ : Volume}
  {steps : List (Volume × IoCall)}

/-- Over every run of writes, overwrites and collections, every live page leads to its entry in
every volume reached just if no call gives a page a new entry without its node naming it. -/
theorem backPointers_iff (h : v₀.Sound A F logs) (hback : v₀.BackPointers A)
    (run : Run (IoStep A R) v₀ steps v) :
    (∀ u ∈ visited steps v, u.BackPointers A) ↔ ∀ p ∈ steps, p.1.KeepsNames A p.2 := by
  refine run.always_iff (J := fun u => (∃ F logs, u.Sound A F logs) ∧ u.BackPointers A)
    ⟨⟨F, logs, h⟩, hback⟩ (fun u hu => hu.2) ?_ ?_
  · rintro u c u' ⟨⟨F, logs, hu⟩, hnamed⟩ hstep hkeeps
    obtain ⟨F', logs', hu', hiff⟩ := hu.io_step hnamed hstep
    exact ⟨⟨F', logs', hu'⟩, hiff.2 hkeeps⟩
  · rintro u c u' ⟨⟨F, logs, hu⟩, hnamed⟩ hstep hgood
    obtain ⟨F', logs', hu', hiff⟩ := hu.io_step hnamed hstep
    exact hiff.1 hgood

/-- The page that is live is overwritten, so that the collection has nothing to move. -/
theorem backPointers_iff_sample : ∃ (steps : List (Volume × IoCall)) (v : Volume),
    Run (IoStep pageAllocator radixTree) (sparseVolume 1) steps v ∧
      steps.map Prod.snd = [.overwrite (pageOff 4158) 4096, .gc fileInode,
        .write fileInode UInt8.ofNat 10 0] ∧
      (∀ p ∈ steps, p.1.KeepsNames pageAllocator p.2) ∧
      ∀ u ∈ visited steps v, u.BackPointers pageAllocator := by
  have hs := sparseVolume_sound (n := 1) (by decide)
  have hback := sparseVolume_backPointers (n := 1) (by decide)
  obtain ⟨v₁, F, logs, hs₁, hstep, hfiles, hnone, hlast⟩ := sparseVolume_overwritten
  have hx : fileInode ∈ v₁.files := hfiles ▸ List.mem_singleton_self _
  obtain ⟨fuel, s, hgc, hlast'⟩ := hs₁.gc_idle hx hnone hlast
  obtain ⟨F', logs', hs₂⟩ := hs₁.gc hx hgc
  have hone : (writeVars s.mem fileInode 10 0).pageNums = 1 := by
    simp [writeVars, addU64, subU64, pageShift]
  have hroom : roundPages 1 ≤ 64 := by decide
  obtain ⟨ret, t, hwrite, -⟩ := (hs₂.log fileInode hx).write_lasts (n := 0) radixTree UInt8.ofNat
    (show 1 ≤ 10 by decide) (by decide) (show 0 < 2 ^ 64 by decide)
    (hlast'.mono (by rwa [hone, Nat.zero_add]))
  have run := ((Run.nil.snoc hstep).snoc (IoStep.gc hx hgc)).snoc
    (IoStep.write (R := radixTree) (v := ⟨s, v₁.homes, v₁.files⟩) hx (by decide) (by decide) hwrite)
  have hkeeps : ∀ p ∈ [(sparseVolume 1, IoCall.overwrite (pageOff 4158) 4096),
      (v₁, .gc fileInode), (⟨s, v₁.homes, v₁.files⟩, .write fileInode UInt8.ofNat 10 0)],
      p.1.KeepsNames pageAllocator p.2 := by
    intro p hp
    simp only [List.mem_cons, List.not_mem_nil, or_false] at hp
    rcases hp with rfl | rfl | rfl
    · exact True.intro
    · exact (hs₁.keepsNames_gc_iff hx).2 fun P hP _ => hnone P hP
    · exact fun hc => absurd hc (by decide)
  exact ⟨_, _, run, rfl, hkeeps, (backPointers_iff hs hback run).2 hkeeps⟩

/-- The collection moves the valid pages, and their nodes go on naming the entries they were in. -/
theorem backPointers_lost : ∃ v : Volume,
    (sparseVolume 85).Sound pageAllocator sparseFrontier.free (sparseLogs 85) ∧
      (sparseVolume 85).BackPointers pageAllocator ∧
      IoStep pageAllocator radixTree (sparseVolume 85) (.gc fileInode) v ∧
      ¬ v.BackPointers pageAllocator := by
  have hs := sparseVolume_sound (n := 85) le_rfl
  have hlog := sparseVolume_logOf (n := 85) le_rfl
  have hx : fileInode ∈ (sparseVolume 85).files := List.mem_singleton_self _
  have hback := sparseVolume_backPointers (n := 85) le_rfl
  have hlast := sparseVolume_lasts (n := 85) le_rfl
  obtain ⟨t, -, -, -, -, hgc, -⟩ := (hlog.gcInode (Nat.lt_succ_self _)).resolve_left fun h =>
    h.2 (hlast.mono ((sweepPages_sparse le_rfl).trans (by decide)))
  have hstep : IoStep pageAllocator radixTree (sparseVolume 85)
      (.gc fileInode) ⟨t, [pageOff 4096], [fileInode]⟩ :=
    .gc hx hgc
  obtain ⟨F', logs', -, hiff⟩ := hs.io_step hback hstep
  refine ⟨_, hs, hback, hstep, fun hc => ?_⟩
  have hpick : (sparsePage 85).picked = true := by
    rw [LogPage.picked, tally_sparse, Bool.or_eq_true]
    exact .inr (by decide)
  have hnone := (hs.keepsNames_gc_iff hx).1 (hiff.1 hc) (sparsePage 85) (by simp [sparseLogs]) hpick
  have hruns := runsOf_sparse 85
  rw [hnone] at hruns
  cases hruns

end Runs

end Volume

end Atfs
