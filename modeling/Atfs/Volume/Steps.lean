import Atfs.Volume.Basic
import Atfs.Volume.Grow

/-!
# Calls on a volume

Pages are taken for inodes, inodes get their logs, entries are appended, pages invalidated and logs
collected, in whatever order. Each call leaves every file its log.
-/

namespace Atfs

open ByteMemory LinkedChain

/-! ## The calls -/

/-- One entry as `nvmio_write` appends it: its pages, its slot, its words and the tail of the inode.
-/
def appendEntry (A : PageAllocator) (s : State)
    (inode allocNum fileSize startWriteOff endWriteOff : Nat) :
    Except Fault State := do
  let logTail := AtfsInode.logTail.get s.mem inode
  let (pages, s) ← A.allocFreePages s allocNum
  let (entry, logTail, s) ← getLogEntry A s logTail
  let m := initLogEntry s.mem entry (ListNode.offset.get s.mem pages) fileSize allocNum
    startWriteOff endWriteOff
  .ok { s with mem := updateInodeTail m inode logTail }

/-- The page `T` is on the log chain of the inode, which runs from the head to the page of the tail.
-/
def OnChain (m : Memory) (inode T : Nat) : Prop :=
  ∃ l last, Segment (pageLink m) (AtfsInode.logHead.get m inode) l last ∧
    last = logPageOff (AtfsInode.logTail.get m inode) ∧ last ∉ l ∧ T ∈ l ++ [last]

/-- The page behind the offset `pageOff` is one of the pages of the entry, and still valid. -/
structure LivePage (m : Memory) (entry pageOff : Nat) : Prop where
  inside : invalidatePos m entry pageOff < FileLogEntry.numPages.get m entry
  valid : (FileLogEntry.bitmap.get m entry).testBit (invalidatePos m entry pageOff) = false

inductive VolumeCall
  /-- A page is taken for inodes to lie in. -/
  | home
  | init (inode : Nat)
  | append (inode allocNum fileSize startWriteOff endWriteOff : Nat)
  | invalidate (inode entry pageOff : Nat)
  | gc (inode : Nat)

inductive VolumeStep (A : PageAllocator) : Volume → VolumeCall → Volume → Prop
  | home {v : Volume} {node : Nat} {s : State}
      (halloc : A.allocFreePages v.state 1 = .ok (node, s)) :
      VolumeStep A v .home ⟨s, ListNode.offset.get s.mem node :: v.homes, v.files⟩
  | init {v : Volume} {x p : Nat} {s : State} (hp : p ∈ v.homes) (hin : InodeIn x p)
      (hapart : ∀ y ∈ v.files, x + 216 ≤ y ∨ y + 216 ≤ x)
      (hinit : initAtfsInode A v.state x = .ok s) :
      VolumeStep A v (.init x) ⟨s, v.homes, x :: v.files⟩
  | append {v : Volume} {x n fileSize start stop : Nat} {s : State} (hx : x ∈ v.files) (hn : 1 ≤ n)
      (hn' : n ≤ maxNumPagePerEntry) (hsize : fileSize < 2 ^ 64) (hstart : start < 2 ^ 64)
      (hstop : stop < 2 ^ 64) (happend : appendEntry A v.state x n fileSize start stop = .ok s) :
      VolumeStep A v (.append x n fileSize start stop) ⟨s, v.homes, v.files⟩
  | invalidate {v : Volume} {x T e pageOff : Nat} (hx : x ∈ v.files) (hT : OnChain v.state.mem x T)
      (he : e ∈ sinceJoined T v.state.trace) (hlive : LivePage v.state.mem e pageOff) :
      VolumeStep A v (.invalidate x e pageOff)
        ⟨{ v.state with mem := invalidateOldLogEntry v.state.mem e pageOff }, v.homes, v.files⟩
  | gc {v : Volume} {x fuel : Nat} {s : State} (hx : x ∈ v.files)
      (hgc : gcInode A x fuel v.state = .ok s) :
      VolumeStep A v (.gc x) ⟨s, v.homes, v.files⟩

/-- The memory `init_atfs_inode` asks for a page in: the words it sets before are set. -/
def inodeCleared (m : Memory) (inode : Nat) : Memory :=
  AtfsInode.fd.set
    (AtfsInode.iSize.set (AtfsInode.deleted.set (AtfsInode.valid.set m inode 0) inode 0)
    inode 0) inode (2 ^ 32 - 1)

/-- The page that `alloc_free_pages` hands out for the log of a new inode has no counts left. -/
def Volume.Clean (A : PageAllocator) (v : Volume) : VolumeCall → Prop
  | .init x =>
    ∀ node m cpu, A.alloc (inodeCleared v.state.mem x) v.state.currentCpu 1 = some (node, m, cpu) →
      counters v.state.mem (node - 4096) = ⟨0, 0, 0, 0⟩
  | _ => True

/-! ## One call -/

/-- Invalidating a page of a log. -/
theorem LogOf.invalidate {A : PageAllocator} {inode r pageOff : Nat} {m : Memory} {f : Frontier}
    {L : List LogPage} {last P : LogPage} {E : LogEntry} (h : LogOf A inode r m f L last)
    (hP : P ∈ L ++ [last]) (hE : E ∈ P.entries) (hlive : LivePage m E.off pageOff) :
    ∃ pos, invalidatePos m E.off pageOff = pos ∧
      LogOf A inode r (invalidateOldLogEntry m E.off pageOff) f (L.map (·.mark E.off pos))
        (last.mark E.off pos) ∧
      ChangesOnly (pageBytes P.page) m (invalidateOldLogEntry m E.off pageOff) := by
  have hPrep := h.log.rep P hP
  obtain ⟨i, hi, hoff⟩ := hPrep.slot_bounds hE
  have hstored := hPrep.stored E hE
  have hlen := hstored.le
  obtain ⟨hinside, hvalid⟩ := hlive
  rw [hstored.words.numPages] at hinside
  rw [hstored.words.bitmap] at hvalid
  have hinv := invalidateOldLogEntry_spec hPrep.isPage (e := E.off) (by omega) (by omega)
    (show invalidatePos m E.off pageOff = _ from rfl) (by omega)
  generalize invalidatePos m E.off pageOff = pos at hinside hvalid hinv
  generalize invalidateOldLogEntry m E.off pageOff = m' at hinv
  have hframe : ChangesOnly (pageBytes P.page) m m' := hinv.frame.mono fun a ha => by
    rw [mem_markBytes] at ha
    rw [mem_pageBytes]
    omega
  have hPown : P.page ∈ owned (L ++ [last]) := mem_owned_page hP
  have hPr : P.page ≠ r := by
    rintro rfl
    exact h.apart hPown
  have hword (g : Field 216) : g.get m' inode = g.get m inode := by
    have hfits := g.fits
    refine Field.get_congr fun a ha => hframe a fun hc => ?_
    refine Set.disjoint_left.1 (h.inodeIn.disjoint_page hPrep.isPage hPr) ?_ hc
    rw [Field.bytes, Set.mem_Ico] at ha
    rw [inodeBytes, Set.mem_Ico]
    omega
  have howned : owned (L.map (·.mark E.off pos) ++ [last.mark E.off pos]) =
      owned (L ++ [last]) := by
    have hall : owned ((L ++ [last]).map (·.mark E.off pos)) = owned (L ++ [last]) := owned_mark
    rwa [List.map_append, List.map_singleton] at hall
  refine ⟨pos, rfl, ⟨h.holds.of_inUse hframe fun a ha => ?_, ?_, ?_, h.inodeIn, h.inUse, ?_⟩,
    hframe⟩
  · exact ⟨P.page, hPrep.isPage, h.log.inUse _ hPown, ha⟩
  · rw [hword]
    exact h.log.mark hP hE hinside hvalid hinv
  · rw [hword]
    exact h.tail
  · rw [howned]
    exact h.apart

/-- Marking a page takes none from the log. -/
theorem pagesOf_entriesIn_mark {Ps : List LogPage} {e j : Nat} :
    pagesOf (entriesIn (Ps.map (·.mark e j))) = pagesOf (entriesIn Ps) := by
  induction Ps with
  | nil => rfl
  | cons P Ps ih =>
    rw [List.map_cons, entriesIn_cons, entriesIn_cons, pagesOf_append, pagesOf_append, ih,
      LogPage.pagesOf_mark]

/-- Whatever page of an entry there is, some offset leads to it. -/
theorem exists_invalidatePos (m : Memory) (e : Nat) {j : Nat} (hj : j < 64) :
    ∃ pageOff, invalidatePos m e pageOff = j := by
  have hstart := FileLogEntry.startWriteOff.get_lt m e
  refine ⟨(FileLogEntry.startWriteOff.get m e / pageSize + j) * pageSize, ?_⟩
  rw [pageSize_eq] at *
  rw [invalidatePos, pageSize_eq, Nat.mul_div_cancel _ (by decide), subU64_of_le (by omega) ?_,
    Nat.add_sub_cancel_left]
  simp only [FileLogEntry.startWriteOff_size] at hstart
  omega

/-- An entry is appended as long as there are pages for it and for the log. -/
theorem LogOf.appendEntry_ok {A : PageAllocator} {inode r n : Nat} {s : State} {f : Frontier}
    {L : List LogPage} {last : LogPage} (h : LogOf A inode r s.mem f L last)
    (fileSize start stop : Nat) (hn : 1 ≤ n) (hn' : n ≤ maxNumPagePerEntry)
    (hlast : A.Lasts (1 + n) s.mem) :
    ∃ s', appendEntry A s inode n fileSize start stop = .ok s' := by
  obtain ⟨⟨node, s₁⟩, halloc⟩ := hlast.allocFreePages_ok h.holds.rep hn hn'
  have hlast₁ := hlast.allocFreePages h.holds.rep hn hn' halloc
  obtain ⟨p, l, F', -, -, hall⟩ := PageAllocator.allocFreePages_spec h.holds.rep hn halloc
  have hf₁ := (hall.logStep h.holds ∅).holds
  rw [appendEntry, h.tail]
  cases hentry : getLogEntry A s₁ f.tail with
  | error e => exact absurd hlast₁ (getLogEntry_starved hf₁ hentry).2.2
  | ok r => exact ⟨_, bind_eq_ok.2 ⟨_, halloc, bind_eq_ok.2 ⟨_, hentry, rfl⟩⟩⟩

/-- Appending an entry to a log: one for `n` pages, all of them valid. -/
theorem LogOf.append {A : PageAllocator} {inode r n fileSize start stop : Nat} {s s' : State}
    {f : Frontier} {L : List LogPage} {last : LogPage} (h : LogOf A inode r s.mem f L last)
    (hn : 1 ≤ n) (hn' : n ≤ maxNumPagePerEntry) (hsize : fileSize < 2 ^ 64)
    (hstart : start < 2 ^ 64) (hstop : stop < 2 ^ 64)
    (happend : appendEntry A s inode n fileSize start stop = .ok s') :
    ∃ f' L' last' E evs s₁,
      LogGrows A (AtfsInode.logHead.get s.mem inode) f f' L last L' last' evs s s₁ ∧
      s' = { s₁ with mem := updateInodeTail s₁.mem inode f'.tail } ∧
      Extends L last E L' last' evs ∧ E.pages.length = n ∧ E.bitmap = 0 ∧
      ∀ k, A.Lasts (k + 1 + n) s.mem → A.Lasts k s₁.mem := by
  rw [appendEntry, h.tail] at happend
  obtain ⟨⟨node, s₁⟩, halloc, happend⟩ := bind_eq_ok.1 happend
  obtain ⟨⟨e, tail', s₂⟩, hentry, happend⟩ := bind_eq_ok.1 happend
  obtain rfl := Except.ok.inj happend
  obtain ⟨f', p, l, rfl, rfl, rfl, hob⟩ := obtained_of_allocFreePages h.holds hn halloc hentry
  generalize hm : initLogEntry s₂.mem e (ListNode.offset.get s₂.mem (p + 4096)) fileSize l.length
    start stop = m
  obtain ⟨evs, hE, hrec, -, hlasts⟩ := hob.entryStep h.holds hn hn' halloc hentry (.refl _ _) hsize
    hstart hstop hm.symm
  have hrec' : Recorded evs s { s₂ with mem := m } := hrec
  have hbalance := getLogEntry_balance halloc hentry
  obtain ⟨L', last', hgrows, hext⟩ := hE.grows hrec' (by exact hbalance) h.log h.holds
    fun q hq => (hob.fresh q hq).1
  refine ⟨f', L', last', _, evs, _, hgrows, rfl, hext, rfl, rfl,
    fun k hlast => hlasts k (hlast.mono ?_)⟩
  have hopened : pagesOpened evs ≤ 1 := by
    rw [hE.grown.pagesOpened]
    split_ifs <;> omega
  omega

/-- A loop that has returned returns the same with more rounds to spare. -/
theorem gcLoop_mono {A : PageAllocator} {inode pageTail fuel k pageHead prevPage : Nat}
    {s s' : State} (h : gcLoop A inode pageTail fuel pageHead prevPage s = .ok s') :
    gcLoop A inode pageTail (fuel + k) pageHead prevPage s = .ok s' := by
  induction fuel generalizing pageHead prevPage s with
  | zero => cases h
  | succ fuel ih =>
    rw [Nat.succ_add, gcLoop]
    rw [gcLoop] at h
    by_cases hne : pageHead ≠ pageTail
    · rw [if_pos hne] at h ⊢
      simp only at h ⊢
      split_ifs at h ⊢
      · obtain ⟨s₁, hblock, h⟩ := bind_eq_ok.1 h
        exact bind_eq_ok.2 ⟨s₁, hblock, ih h⟩
      · exact ih h
    · rw [if_neg hne] at h ⊢
      exact h

/-- Collecting a log with rounds enough. -/
theorem LogOf.gcInode_ok {A : PageAllocator} {inode r fuel : Nat} {s s' : State} {f : Frontier}
    {L : List LogPage} {last : LogPage} (h : LogOf A inode r s.mem f L last)
    (hok : Atfs.gcInode A inode fuel s = .ok s') :
    ∃ f' Z last' evs, Swept A inode r f f' s s' [] L [] Z last last' evs ∧
      Repacked [] L [] Z last last' s.mem s'.mem evs ∧
      FileKept inode (entriesIn (L ++ [last]))
        (entriesIn (L.filter (!·.picked) ++ Z ++ [last'])) s.mem s'.mem ∧
      PagesBalance s s' (owned (L ++ [last])).length
        (owned (L.filter (!·.picked) ++ Z ++ [last'])).length := by
  have hmore : Atfs.gcInode A inode (fuel + (L.length + 1)) s = .ok s' := gcLoop_mono hok
  rcases h.gcInode (show L.length < fuel + (L.length + 1) by omega) with hfail | ⟨s₁, f', Z, last',
    evs, hok', hswept, hpack, hkept, hbalance, -⟩
  · rw [hfail.1] at hmore
    cases hmore
  · obtain rfl : s₁ = s' := by simpa using hok'.symm.trans hmore
    exact ⟨f', Z, last', evs, hswept, hpack, hkept, hbalance⟩

namespace Volume

section Steps

variable {A : PageAllocator} {F : Set Nat} {logs : Nat → FileLog} {v v' : Volume} {s : State}
  {x p node : Nat}

/-- A page for inodes. -/
theorem Sound.takeHome (h : v.Sound A F logs)
    (halloc : A.allocFreePages v.state 1 = .ok (node, s)) :
    ∃ F', F' ⊆ F ∧
      Volume.Sound A F' logs ⟨s, ListNode.offset.get s.mem node :: v.homes, v.files⟩ := by
  obtain ⟨p, l, F', rfl, hlen, hall⟩ := PageAllocator.allocFreePages_spec h.rep le_rfl halloc
  obtain ⟨q, rfl⟩ : ∃ q, l = [q] := List.length_eq_one_iff.1 hlen
  obtain rfl : p = q := hall.chain.chain.head_eq
  have hoff : ListNode.offset.get s.mem (p + 4096) = p := hall.chain.offset p (by simp)
  have hp : p ∈ F := hall.fresh p (by simp)
  have hpF' : p ∉ F' := fun hc => (hall.rest p hc).2 (by simp)
  have hsub {q : Nat} (hq : q ∉ F) : q ∉ F' := fun hc => hq (hall.rest q hc).1
  rw [hoff]
  refine ⟨F', fun q hq => (hall.rest q hq).1, hall.rep, fun y hy => ?_, fun y hy => ?_,
    fun q hq => ?_, fun y hy => ?_, h.disjoint, h.apart⟩
  · have hly := h.log y hy
    have hr := h.home _ (h.homes y hy)
    refine hly.congr hall.rep rfl rfl ?_ (fun q hq => ?_) (hsub hr.2.1) fun q hq => ?_
    · exact (hall.keeps h.rep hr.1 hr.2.1).mono hly.inodeIn.subset_page
    · exact hall.keeps h.rep (h.isPage_own hy q hq) (h.own_notFree hy q hq)
    · exact hsub (h.own_notFree hy q hq)
  · have hrec : Recorded [] v.state s := ⟨[.alloc (p + 4096) 1], hall.trace, rfl⟩
    exact fun P hP => hrec.sinceJoined.trans (h.joined y hy P hP)
  · rcases List.mem_cons.1 hq with rfl | hq
    · exact ⟨A.rep_page h.rep q hp, hpF', fun y hy hc => h.own_notFree hy q hc hp⟩
    · obtain ⟨hpage, hqF, hown⟩ := h.home q hq
      exact ⟨hpage, hsub hqF, hown⟩
  · exact List.mem_cons_of_mem _ (h.homes y hy)

/-- The log page of a new inode is the one that `alloc_free_pages` hands out, and has the counters
it had before. -/
theorem initAtfsInode_counters (h : v.Sound A F logs) (hp : p ∈ v.homes) (hin : InodeIn x p)
    (hinit : initAtfsInode A v.state x = .ok s) :
    ∃ f m cpu, Initialised A F v.state s x f ∧ counters s.mem f.page = counters v.state.mem f.page ∧
      A.alloc (inodeCleared v.state.mem x) v.state.currentCpu 1 = some (f.page + 4096, m, cpu) := by
  obtain ⟨-, hpF, -⟩ := h.home p hp
  obtain ⟨f, hf⟩ := initAtfsInode_spec h.rep hin hpF hinit
  have hT := hf.holds.isPage
  have hne : f.page ≠ p := by
    rintro rfl
    exact hpF hf.fresh
  have hcount : counters s.mem f.page = counters v.state.mem f.page :=
    counters_of_allocatorBytes (A.rep_page h.rep) hT hf.frame (hin.disjoint_page hT hne)
  have htrace := hf.trace
  rw [initAtfsInode] at hinit
  obtain ⟨⟨node, s₁⟩, halloc, hinit⟩ := bind_eq_ok.1 hinit
  have halloc : A.allocFreePages { v.state with mem := inodeCleared v.state.mem x } 1 =
    .ok (node, s₁) := halloc
  rw [PageAllocator.allocFreePages] at halloc
  split at halloc
  · rename_i node' m cpu hc
    obtain ⟨rfl, rfl⟩ : node' = node ∧ _ = s₁ := by simpa using halloc
    simp only [Except.ok.injEq] at hinit
    rw [← hinit] at htrace
    simp only [List.cons.injEq, Event.alloc.injEq, and_true] at htrace
    obtain ⟨-, rfl⟩ := htrace
    exact ⟨f, m, cpu, hf, hcount, hc⟩
  · cases halloc

/-- A new inode has a log without entries. -/
theorem Sound.init_empty (h : v.Sound A F logs) (hp : p ∈ v.homes) (hin : InodeIn x p)
    (hapart : ∀ y ∈ v.files, x + 216 ≤ y ∨ y + 216 ≤ x) (hclean : v.Clean A (.init x))
    (hinit : initAtfsInode A v.state x = .ok s) :
    ∃ f, Initialised A F v.state s x f ∧ Volume.Sound A f.free
      (Function.update logs x ⟨p, [], ⟨f.page, []⟩⟩) ⟨s, v.homes, x :: v.files⟩ := by
  obtain ⟨hpage, hpF, hpown⟩ := h.home p hp
  obtain ⟨f, m, cpu, hf, hkeep, halloc⟩ := initAtfsInode_counters h hp hin hinit
  have hT := hf.holds.isPage
  have hne : f.page ≠ p := by
    rintro rfl
    exact hpF hf.fresh
  have hxnot : x ∉ v.files := fun hc => by
    have := hapart x hc
    omega
  have hcount : counters s.mem f.page = ⟨0, 0, 0, 0⟩ := by
    have hold := hclean _ _ _ halloc
    rw [Nat.add_sub_cancel] at hold
    exact hkeep.trans hold
  have hrep : LogPage.Rep ⟨f.page, []⟩ s.mem :=
    ⟨hT, hf.chain.offset f.page (by simp), by simp, by simp, by simp, by simp, hcount⟩
  have hown : owned [⟨f.page, []⟩] = [f.page] := rfl
  have hlog : LogOf A x p s.mem ⟨f.free, f.page, f.page⟩ [] ⟨f.page, []⟩ := by
    refine ⟨⟨hf.holds.rep, hT, hf.holds.notFree, le_rfl, Nat.le_add_right _ _⟩,
      ⟨hf.logHead, ?_, rfl, rfl, List.nodup_singleton _, ?_⟩, hf.logTail, hin,
      fun hc => hpF (hf.sub hc), ?_⟩
    · intro P hP
      obtain rfl := List.mem_singleton.1 hP
      exact hrep
    · intro q hq
      obtain rfl := List.mem_singleton.1 hq
      exact hf.holds.notFree
    · intro hc
      exact hne (List.mem_singleton.1 hc).symm
  refine ⟨f, hf, h.replace (U := ∅) hlog hp ?_ (by simp) (by simp) (by simp) ?_ ?_
    (fun y hy _ => hapart y hy) ?_ ?_⟩
  · intro y hy
    rcases List.mem_cons.1 hy with rfl | hmem
    · exact .inl rfl
    · refine .inr ⟨hmem, ?_⟩
      rintro rfl
      exact hxnot hmem
  · rintro q (hq | hq)
    · exact .inl (hf.sub hq)
    · obtain rfl := List.mem_singleton.1 (hown ▸ hq : q ∈ [f.page])
      exact .inl hf.fresh
  · refine hf.frame.mono ?_
    rintro a (ha | ha)
    · rw [reachBytes, Set.union_empty]
      exact .inl (allocatorBytes_subset ha)
    · exact .inr ha
  · intro P hP
    obtain rfl := List.mem_singleton.1 hP
    rw [hf.trace, sinceJoined, if_pos rfl]
    rfl
  · intro T hTF _
    have hTne : f.page ≠ T := by
      rintro rfl
      exact hTF hf.fresh
    rw [hf.trace, sinceJoined, if_neg hTne, sinceJoined]

/-- The log of a new inode. -/
theorem Sound.init (h : v.Sound A F logs) (hp : p ∈ v.homes) (hin : InodeIn x p)
    (hapart : ∀ y ∈ v.files, x + 216 ≤ y ∨ y + 216 ≤ x) (hclean : v.Clean A (.init x))
    (hinit : initAtfsInode A v.state x = .ok s) :
    ∃ F' logs', Volume.Sound A F' logs' ⟨s, v.homes, x :: v.files⟩ := by
  obtain ⟨f, -, h'⟩ := h.init_empty hp hin hapart hclean hinit
  exact ⟨f.free, _, h'⟩

/-- The pages on the chain are those of the log. -/
theorem Sound.onChain_iff {T : Nat} (h : v.Sound A F logs) (hx : x ∈ v.files) :
    OnChain v.state.mem x T ↔ ∃ P ∈ (logs x).all, P.page = T := by
  have hlog := h.log x hx
  have hlast : logPageOff (AtfsInode.logTail.get v.state.mem x) = (logs x).last.page := by
    have hle := hlog.holds.le_tail
    have hle' := hlog.holds.tail_le
    rw [hlog.tail, ← hlog.log.page]
    exact hlog.holds.isPage.logPageOff_eq (by rw [mem_pageBytes]; omega)
  have hnodup := (pages_sublist_owned _).nodup hlog.log.nodup
  rw [List.map_append, List.map_singleton] at hnodup
  have hnotMem : (logs x).last.page ∉ (logs x).pages.map (·.page) := fun hc =>
    (List.nodup_append'.1 hnodup).2.2 hc (List.mem_singleton_self _)
  have hpages : (logs x).pages.map (·.page) ++ [(logs x).last.page] =
      (logs x).all.map (·.page) := by
    rw [FileLog.all, List.map_append, List.map_singleton]
  rw [← List.mem_map, ← hpages, OnChain]
  constructor
  · rintro ⟨l, last, hchain, rfl, hl, hT⟩
    rw [hlast] at hchain hl hT
    rwa [hchain.unique_of_end hlog.log.chain hl hnotMem] at hT
  · exact fun hT => ⟨_, _, hlog.log.chain, hlast.symm, hnotMem, hT⟩

/-- An entry that the trace has for a page on the chain. -/
theorem Sound.entry {T e : Nat} (h : v.Sound A F logs) (hx : x ∈ v.files)
    (hT : OnChain v.state.mem x T) (he : e ∈ sinceJoined T v.state.trace) :
    ∃ P ∈ (logs x).all, P.page = T ∧ ∃ E ∈ P.entries, E.off = e := by
  obtain ⟨P, hP, rfl⟩ := (h.onChain_iff hx).1 hT
  rw [h.joined x hx P hP] at he
  exact ⟨P, hP, rfl, List.mem_map.1 he⟩

/-- A page of a log marked: which one. -/
theorem Sound.mark {P : LogPage} {E : LogEntry} {pageOff : Nat} (h : v.Sound A F logs)
    (hx : x ∈ v.files) (hP : P ∈ (logs x).all) (hE : E ∈ P.entries)
    (hlive : LivePage v.state.mem E.off pageOff) :
    ∃ pos, invalidatePos v.state.mem E.off pageOff = pos ∧
      Volume.Sound A F (Function.update logs x ((logs x).mark E.off pos))
        ⟨{ v.state with mem := invalidateOldLogEntry v.state.mem E.off pageOff },
          v.homes, v.files⟩ ∧
      ChangesOnly (pageBytes P.page) v.state.mem
      (invalidateOldLogEntry v.state.mem E.off pageOff) := by
  obtain ⟨pos, hpos, hlog, hframe⟩ := (h.log x hx).invalidate hP hE hlive
  generalize invalidateOldLogEntry v.state.mem E.off pageOff = m at hlog hframe
  refine ⟨pos, hpos, h.replace (U := {q | q ∈ (logs x).own}) ?_
    (h.homes x hx) (fun y hy => ?_) (h.isPage_own hx) ?_ ?_ ?_ ?_ ?_ ?_ fun T _ _ => rfl, hframe⟩
  · rwa [FileLog.frontier_mark]
  · by_cases hyx : y = x
    · exact .inl hyx
    · exact .inr ⟨hy, hyx⟩
  · exact fun y hy hyx q hq hc => h.disjoint y hy x hx hyx hq hc
  · exact fun p hp hc => (h.home p hp).2.2 x hx hc
  · rintro q (hq | hq)
    · exact .inl hq
    · rw [FileLog.own_mark] at hq
      exact .inr hq
  · exact hframe.mono fun a ha => .inl (.inr ⟨P.page, .inr (mem_owned_page hP), ha⟩)
  · exact fun y hy hyx => (h.apart y hy x hx hyx).symm
  · intro Q hQ
    rw [FileLog.all_mark] at hQ
    obtain ⟨Q₀, hQ₀, rfl⟩ := List.mem_map.1 hQ
    rw [LogPage.map_off_mark]
    exact h.joined x hx Q₀ hQ₀

theorem Sound.invalidate {T e pageOff : Nat} (h : v.Sound A F logs) (hx : x ∈ v.files)
    (hT : OnChain v.state.mem x T) (he : e ∈ sinceJoined T v.state.trace)
    (hlive : LivePage v.state.mem e pageOff) :
    ∃ logs', Volume.Sound A F logs'
        ⟨{ v.state with mem := invalidateOldLogEntry v.state.mem e pageOff }, v.homes, v.files⟩ ∧
      pagesOf (entriesIn (logs' x).all) = pagesOf (entriesIn (logs x).all) ∧
      Set.EqOn (invalidateOldLogEntry v.state.mem e pageOff) v.state.mem
      (metadata ∪ bytesOf F) := by
  obtain ⟨P, hP, rfl, E, hE, rfl⟩ := h.entry hx hT he
  obtain ⟨pos, -, h', hframe⟩ := h.mark hx hP hE hlive
  have hown : P.page ∈ (logs x).own := mem_owned_page hP
  refine ⟨_, h', ?_, eqOn_of_inUse (A.rep_page h.rep) hframe fun a ha =>
    ⟨P.page, h.isPage_own hx _ hown, h.own_notFree hx _ hown, ha⟩⟩
  rw [Function.update_self, FileLog.all_mark, pagesOf_entriesIn_mark]

/-- A log that moves on beside the others. -/
theorem Sound.advance {L' : List LogPage} {last' : LogPage} {f' : Frontier} {evs : List Event}
    (h : v.Sound A F logs) (hx : x ∈ v.files) (hlog : LogOf A x (logs x).home s.mem f' L' last')
    (hrec : Recorded evs v.state s) (hev : Evolves (logs x).pages (logs x).last L' last' evs)
    (hopened : ∀ q ∈ openedPages evs, q ∈ F ∨ q ∈ (logs x).own)
    (hreach : ∀ q, q ∈ f'.free ∨ q ∈ owned (L' ++ [last']) → q ∈ F ∨ q ∈ (logs x).own)
    (hframe : ChangesOnly (logBytes ((logs x).frontier F) x (logs x).own) v.state.mem s.mem) :
    Volume.Sound A f'.free (Function.update logs x ⟨(logs x).home, L', last'⟩)
      ⟨s, v.homes, v.files⟩ := by
  obtain ⟨F', T, t⟩ := f'
  obtain rfl : T = last'.page := hlog.log.page
  obtain rfl := hlog.log.tail
  have hlog' : LogOf A x (FileLog.mk (logs x).home L' last').home s.mem
      (FileLog.frontier ⟨(logs x).home, L', last'⟩ F') L' last' := hlog
  refine h.replace (U := {q | q ∈ (logs x).own}) hlog' (h.homes x hx)
    (fun y hy => ?_) (h.isPage_own hx) ?_ ?_ hreach hframe ?_ ?_ ?_
  · by_cases hyx : y = x
    · exact .inl hyx
    · exact .inr ⟨hy, hyx⟩
  · exact fun y hy hyx q hq hc => h.disjoint y hy x hx hyx hq hc
  · exact fun p hp hc => (h.home p hp).2.2 x hx hc
  · exact fun y hy hyx => (h.apart y hy x hx hyx).symm
  · exact (hev.joined (h.joined x hx)).recorded hrec
  · intro T hTF hTx
    have hpage {p : Nat} (hp : .logPage p ∈ evs) : p ≠ T := by
      rintro rfl
      exact (hopened p (mem_openedPages.2 hp)).elim hTF hTx
    rw [hrec.sinceJoined]
    refine sinceJoined_of_outside (fun p hp => hpage hp) fun e he => ?_
    rcases hev.touched.2 e he with heq | hp
    · rintro rfl
      exact hTx (heq ▸ mem_owned_page (by simp [FileLog.all]))
    · exact hpage hp

/-- A log that has grown, with the tail of its inode behind it. -/
theorem Sound.grow {L' : List LogPage} {last' : LogPage} {f' : Frontier} {evs : List Event}
    {s₁ : State} (h : v.Sound A F logs) (hx : x ∈ v.files)
    (hgrows : LogGrows A (AtfsInode.logHead.get v.state.mem x)
      ((logs x).frontier F) f' (logs x).pages
      (logs x).last L' last' evs v.state s₁)
    (hmem : s.mem = updateInodeTail s₁.mem x f'.tail) (htrace : s.trace = s₁.trace) :
    Volume.Sound A f'.free (Function.update logs x ⟨(logs x).home, L', last'⟩)
      ⟨s, v.homes, v.files⟩ ∧
      ChangesOnly (logBytes ((logs x).frontier F) x (logs x).own) v.state.mem s.mem := by
  obtain ⟨ts, hstep⟩ := hgrows.step
  obtain ⟨hlog, hframe⟩ := hgrows.setTail (h.log x hx)
  rw [← hmem] at hlog hframe
  have hrec : Recorded evs v.state s := by
    obtain ⟨new, hnew, hevs⟩ := hgrows.recorded
    exact ⟨new, htrace.trans hnew, hevs⟩
  refine ⟨h.advance hx hlog hrec hgrows.evolves (fun q hq => .inl (hgrows.opened q hq)) ?_ hframe,
    hframe⟩
  rintro q (hq | hq)
  · exact .inl (hstep.sub hq)
  · exact hgrows.reach q hq

/-- An entry appended to a log: one for `n` pages, all of them valid. -/
theorem Sound.append_entry {n fileSize start stop : Nat} (h : v.Sound A F logs) (hx : x ∈ v.files)
    (hn : 1 ≤ n) (hn' : n ≤ maxNumPagePerEntry) (hsize : fileSize < 2 ^ 64)
    (hstart : start < 2 ^ 64) (hstop : stop < 2 ^ 64)
    (happend : appendEntry A v.state x n fileSize start stop = .ok s) :
    ∃ F' logs' E, Volume.Sound A F' logs' ⟨s, v.homes, v.files⟩ ∧
      entriesIn (logs' x).all = entriesIn (logs x).all ++ [E] ∧ E.pages.length = n ∧ E.bitmap = 0 ∧
      ∀ k, A.Lasts (k + 1 + n) v.state.mem → A.Lasts k s.mem := by
  obtain ⟨f', L', last', E, evs, s₁, hgrows, rfl, hext, hlen, hbits, hlasts⟩ :=
    (h.log x hx).append hn hn' hsize hstart hstop happend
  have h' := (h.grow (s := { s₁ with mem := updateInodeTail s₁.mem x f'.tail }) hx hgrows rfl rfl).1
  refine ⟨_, _, E, h', ?_, hlen, hbits, fun k hlast => ?_⟩
  · rw [Function.update_self]
    exact hext.entriesIn
  · -- the inode lies in a page in use
    obtain ⟨ts, hstep⟩ := hgrows.step
    have hin := (h.log x hx).inodeIn
    have htail : ChangesOnly (inodeBytes x) s₁.mem (updateInodeTail s₁.mem x f'.tail) :=
      AtfsInode.changesOnly _ _ _ _
    exact (hlasts k hlast).congr hstep.holds.rep (htail.eqOn (hin.apart (A.rep_page hstep.holds.rep)
      fun hc => (h.log x hx).inUse (hstep.sub hc)))

/-- An entry appended to a log. -/
theorem Sound.append {n fileSize start stop : Nat} (h : v.Sound A F logs) (hx : x ∈ v.files)
    (hn : 1 ≤ n) (hn' : n ≤ maxNumPagePerEntry) (hsize : fileSize < 2 ^ 64)
    (hstart : start < 2 ^ 64) (hstop : stop < 2 ^ 64)
    (happend : appendEntry A v.state x n fileSize start stop = .ok s) :
    ∃ F' logs', Volume.Sound A F' logs' ⟨s, v.homes, v.files⟩ := by
  obtain ⟨F', logs', -, h', -⟩ := h.append_entry hx hn hn' hsize hstart hstop happend
  exact ⟨F', logs', h'⟩

/-- A log collected: what has become of its entries. -/
theorem Sound.gc_repacked {fuel : Nat} (h : v.Sound A F logs) (hx : x ∈ v.files)
    (hgc : gcInode A x fuel v.state = .ok s) :
    ∃ F' Z last' evs, Repacked [] (logs x).pages [] Z (logs x).last last' v.state.mem s.mem evs ∧
      Volume.Sound A F' (Function.update logs x
        ⟨(logs x).home, (logs x).pages.filter (!·.picked) ++ Z, last'⟩) ⟨s, v.homes, v.files⟩ ∧
      ChangesOnly (logBytes ((logs x).frontier F) x (logs x).own) v.state.mem s.mem ∧
      FileKept x (entriesIn (logs x).all)
      (entriesIn ((logs x).pages.filter (!·.picked) ++ Z ++ [last']))
        v.state.mem s.mem ∧ s.index = v.state.index ∧
      PagesBalance v.state s (logs x).own.length
        (FileLog.own ⟨(logs x).home, (logs x).pages.filter (!·.picked) ++ Z, last'⟩).length := by
  obtain ⟨f', Z, last', evs, hswept, hpack, hkept, hbalance⟩ := (h.log x hx).gcInode_ok hgc
  have hown : owned ([] ++ (logs x).pages ++ [] ++ [(logs x).last]) = (logs x).own := by
    rw [List.nil_append, List.append_nil]
    rfl
  have hev := hpack.evolves
  rw [List.nil_append, List.append_nil] at hev
  have hframe := hswept.frame
  rw [hown] at hframe
  refine ⟨_, Z, last', evs, hpack, h.advance hx hswept.log hswept.recorded hev (fun q hq => ?_)
    (fun q hq => ?_) hframe, hframe, hkept, hswept.index, hbalance⟩
  · refine (hswept.opened q hq).imp_right ?_
    rintro ⟨P, hP, -, hqP⟩
    exact mem_owned.2 ⟨P, List.mem_append_left _ hP, hqP⟩
  · have := hswept.reach q hq
    rwa [hown] at this

/-- Twice the data pages of a log are enough for its collection. -/
theorem Sound.lasts_sweep {n : Nat} (h : v.Sound A F logs) (hx : x ∈ v.files)
    (hlast : A.Lasts n v.state.mem) (hn : 2 * (pagesOf (entriesIn (logs x).all)).length ≤ n) :
    A.Lasts (sweepPages (logs x).pages) v.state.mem := by
  have hlog := h.log x hx
  refine hlast.mono (le_trans ?_ hn)
  refine (sweepPages_le fun P hP => hlog.log.rep P (List.mem_append_left _ hP)).trans ?_
  have hsplit : entriesIn (logs x).all = entriesIn (logs x).pages ++ (logs x).last.entries := by
    rw [FileLog.all, entriesIn, List.flatMap_append]
    simp [entriesIn]
  rw [hsplit, pagesOf_append, List.length_append]
  omega

/-- A log is collected as long as there are so many. -/
theorem Sound.gc_ok {n : Nat} (h : v.Sound A F logs) (hx : x ∈ v.files)
    (hlast : A.Lasts n v.state.mem) (hn : 2 * (pagesOf (entriesIn (logs x).all)).length ≤ n) :
    ∃ fuel s, gcInode A x fuel v.state = .ok s := by
  obtain ⟨s, -, -, -, -, hok, -⟩ := ((h.log x hx).gcInode (Nat.lt_succ_self _)).resolve_left
    fun hfail => hfail.2 (h.lasts_sweep hx hlast hn)
  exact ⟨_, s, hok⟩

theorem Sound.gc {fuel : Nat} (h : v.Sound A F logs) (hx : x ∈ v.files)
    (hgc : gcInode A x fuel v.state = .ok s) : ∃ F' logs',
    Volume.Sound A F' logs' ⟨s, v.homes, v.files⟩ := by
  obtain ⟨F', Z, last', evs, -, h', -⟩ := h.gc_repacked hx hgc
  exact ⟨F', _, h'⟩

/-- A call leaves every file its log, unless a new inode gets a page with counts left on it. -/
theorem Sound.step {c : VolumeCall} (h : v.Sound A F logs) (hstep : VolumeStep A v c v')
    (hclean : v.Clean A c) :
    ∃ F' logs', v'.Sound A F' logs' := by
  cases hstep with
  | home halloc =>
    obtain ⟨F', -, h'⟩ := h.takeHome halloc
    exact ⟨F', logs, h'⟩
  | init hp hin hapart hinit => exact h.init hp hin hapart hclean hinit
  | append hx hn hn' hsize hstart hstop happend =>
    exact h.append hx hn hn' hsize hstart hstop happend
  | invalidate hx hT he hlive =>
    obtain ⟨logs', h', -⟩ := h.invalidate hx hT he hlive
    exact ⟨F, logs', h'⟩
  | gc hx hgc => exact h.gc hx hgc

end Steps

end Volume

end Atfs
