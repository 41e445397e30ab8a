import Atfs.Volume.Side

/-!
# Steps of the file system

Pages are taken for inodes, files are made and used, pages are invalidated and logs collected. As
long as no page is invalidated that an index still has, the index of every file has pages of its
log.
-/

namespace Atfs

open ByteMemory LinkedChain LabelledRun

/-! ## The calls -/

inductive FsCall
  | home
  | init (inode : Nat)
  | call (inode : Nat) (c : Call) (a : Answer)
  | invalidate (inode entry pageOff : Nat)
  | gc (inode : Nat)
  /-- Something is written beside the files. -/
  | side

/-- A call on a volume, or something written beside its files. No call is to run over `2 ^ 64`, a
new inode is to get a log page without counts, and what is written beside the files is to stay off
what they and the allocator have. The pages come from an allocator that keeps its contract
(`PageAllocator`), and the indices are kept beside the memory (`State.index`): no write to a page
shows in them. -/
inductive FsStep (A : PageAllocator) (R : RadixTree) : Volume → FsCall → Volume → Prop
  | home {v : Volume} {node : Nat} {s : State}
      (halloc : A.allocFreePages v.state 1 = .ok (node, s)) :
      FsStep A R v .home ⟨s, ListNode.offset.get s.mem node :: v.homes, v.files⟩
  | init {v : Volume} {x p : Nat} {s : State} (hp : p ∈ v.homes) (hin : InodeIn x p)
      (hapart : ∀ y ∈ v.files, x + 216 ≤ y ∨ y + 216 ≤ x) (hclean : v.Clean A (.init x))
      (hinit : initAtfsInode A v.state x = .ok s) :
      FsStep A R v (.init x) ⟨s, v.homes, x :: v.files⟩
  | call {v : Volume} {x : Nat} {c : Call} {a : Answer} {s : State} (hx : x ∈ v.files)
      (hfit : (viewOf v.state.mem x).Fits c) (hrun : answerCall A R x v.state c = .ok (a, s)) :
      FsStep A R v (.call x c a) ⟨s, v.homes, v.files⟩
  | invalidate {v : Volume} {x T e j q pageOff : Nat} (hx : x ∈ v.files)
      (hlive : LiveData v.state.mem x T e j q) (hpos : invalidatePos v.state.mem e pageOff = j) :
      FsStep A R v (.invalidate x e pageOff)
        ⟨{ v.state with mem := invalidateOldLogEntry v.state.mem e pageOff }, v.homes, v.files⟩
  | gc {v : Volume} {x fuel : Nat} {s : State} (hx : x ∈ v.files)
      (hgc : gcInode A x fuel v.state = .ok s) :
      FsStep A R v (.gc x) ⟨s, v.homes, v.files⟩
  | side {v : Volume} {s : State} (hside : v.SideWrite A s) :
      FsStep A R v .side ⟨s, v.homes, v.files⟩

theorem FsStep.of_home {A : PageAllocator} {R : RadixTree} {v v' : Volume}
    (h : VolumeStep A v .home v') :
    FsStep A R v .home v' := by
  cases h with
  | home halloc => exact .home halloc

theorem FsStep.of_init {A : PageAllocator} {R : RadixTree} {v v' : Volume} {x : Nat}
    (h : VolumeStep A v (.init x) v') (hclean : v.Clean A (.init x)) :
    FsStep A R v (.init x) v' := by
  cases h with
  | init hp hin hapart hinit => exact .init hp hin hapart hclean hinit

/-- The page that `invalidate_old_log_entry` marks. -/
def invalidatedPage (m : Memory) (entry pageOff : Nat) : Nat :=
  (pageLink m)^[invalidatePos m entry pageOff] (FileLogEntry.data.get m entry)

/-- The index does not have the page that is invalidated. -/
def Volume.Stale (v : Volume) : FsCall → Prop
  | .invalidate x e pageOff => ∀ key, v.state.index x key ≠ invalidatedPage v.state.mem e pageOff
  | _ => True

/-- What the index has for a page of a file is a valid page of its log that holds this page. -/
def Volume.Indexed (v : Volume) : Prop :=
  ∀ x ∈ v.files, ∀ key, v.state.index x key ≠ offsetNull →
    key % 4096 = 0 ∧ FilePage v.state.mem x (key / 4096) (v.state.index x key)

/-! ## Invalidation -/

section Mark

variable {Ps : List LogPage} {E : LogEntry} {m : Memory} {j k q q' : Nat}

theorem LogEntry.invalid_mark (E : LogEntry) (j i : Nat) :
    (E.mark j).invalid i = (E.invalid i || decide (j = i)) := by
  rw [LogEntry.invalid, LogEntry.mark, Nat.testBit_or, Nat.shiftLeft_eq, one_mul,
    Nat.testBit_two_pow, LogEntry.invalid]

theorem mem_entriesIn_mark {N : LogEntry} {e : Nat} : N ∈ entriesIn (Ps.map (·.mark e j)) ↔
    ∃ D ∈ entriesIn Ps, (if D.off = e then D.mark j else D) = N := by
  simp only [mem_entriesIn]
  constructor
  · rintro ⟨Q, hQ, hN⟩
    obtain ⟨P, hP, rfl⟩ := List.mem_map.1 hQ
    obtain ⟨D, hD, rfl⟩ := List.mem_map.1 hN
    exact ⟨D, ⟨P, hP, hD⟩, rfl⟩
  · rintro ⟨D, ⟨P, hP, hD⟩, rfl⟩
    exact ⟨_, List.mem_map_of_mem hP, List.mem_map_of_mem hD⟩

/-- With one page marked the log has all its pages but this one. -/
theorem liveAt_mark (hnodup : (owned Ps).Nodup) (hstored : ∀ D ∈ entriesIn Ps, D.Stored m)
    (hE : E ∈ entriesIn Ps) (hq : E.pages[j]? = some q) :
    LiveAt (entriesIn (Ps.map (·.mark E.off j))) k q' ↔ LiveAt (entriesIn Ps) k q' ∧ q' ≠ q := by
  have hpages := (pagesOf_entriesIn_sublist Ps).nodup hnodup
  constructor
  · rintro ⟨N, hN, i, hi, hvalid, rfl⟩
    obtain ⟨D, hD, rfl⟩ := mem_entriesIn_mark.1 hN
    rw [LogEntry.mark_pages] at hi
    have hplace : (if D.off = E.off then D.mark j else D).filePage i = D.filePage i := by
      split_ifs <;> rfl
    rw [hplace]
    split_ifs at hvalid with hoff
    · rw [LogEntry.invalid_mark, Bool.or_eq_false_iff, decide_eq_false_iff_not] at hvalid
      refine ⟨⟨D, hD, i, hi, hvalid.1, rfl⟩, ?_⟩
      rintro rfl
      exact hvalid.2 (eq_of_mem_pages hpages hE hD hq hi).2
    · refine ⟨⟨D, hD, i, hi, hvalid, rfl⟩, ?_⟩
      rintro rfl
      exact hoff (congrArg LogEntry.off (eq_of_mem_pages hpages hE hD hq hi).1.symm)
  · rintro ⟨⟨D, hD, i, hi, hvalid, rfl⟩, hne⟩
    refine ⟨_, mem_entriesIn_mark.2 ⟨D, hD, rfl⟩,
      i, by rwa [LogEntry.mark_pages], ?_, by split_ifs <;> rfl⟩
    split_ifs with hoff
    · obtain rfl := (hstored D hD).eq (hstored E hE) hoff
      rw [LogEntry.invalid_mark, hvalid, Bool.false_or, decide_eq_false_iff_not]
      rintro rfl
      exact hne (Option.some.inj (hi.symm.trans hq))
    · exact hvalid

theorem LiveData.invalidatedPage_eq {x T e j q pageOff : Nat} (h : LiveData m x T e j q)
    (hpos : invalidatePos m e pageOff = j) : invalidatedPage m e pageOff = q := by
  rw [invalidatedPage, hpos, h.page]

end Mark

namespace Volume

section Step

variable {A : PageAllocator} {R : RadixTree} {F : Set Nat} {logs : Nat → FileLog} {v v' : Volume}
  {s : State} {c : FsCall} {x T e j k q pageOff : Nat}

theorem Sound.stored (h : v.Sound A F logs) (hx : x ∈ v.files) :
    ∀ E ∈ entriesIn (logs x).all, E.Stored v.state.mem := by
  intro E hE
  obtain ⟨P, hP, hE⟩ := mem_entriesIn.1 hE
  exact ((h.log x hx).log.rep P hP).stored E hE

/-- A page of a file invalidated: the file has all its pages but this one, and nothing else changes.
-/
theorem Sound.invalidate_live (h : v.Sound A F logs) (hx : x ∈ v.files)
    (hlive : LiveData v.state.mem x T e j q) (hpos : invalidatePos v.state.mem e pageOff = j) :
    ∃ logs' m', invalidateOldLogEntry v.state.mem e pageOff = m' ∧
      Volume.Sound A F logs' ⟨{ v.state with mem := m' }, v.homes, v.files⟩ ∧
      (∀ k q', LiveAt (entriesIn (logs' x).all) k q' ↔ LiveAt (entriesIn (logs x).all) k q' ∧
        q' ≠ q) ∧
      (∀ y ≠ x, logs' y = logs y) ∧ pagesOf (entriesIn (logs' x).all) =
      pagesOf (entriesIn (logs x).all) ∧
      ∃ P ∈ (logs x).all, ChangesOnly (pageBytes P.page) v.state.mem m' := by
  have hinside : LivePage v.state.mem e pageOff := ⟨hpos ▸ hlive.inside, hpos ▸ hlive.valid⟩
  obtain ⟨P, hP, rfl, E, hE, rfl, hq, -⟩ := (h.liveData_iff hx).1 hlive
  obtain ⟨pos, hpos', h', hframe⟩ := h.mark hx hP hE hinside
  obtain rfl := hpos.symm.trans hpos'
  generalize invalidateOldLogEntry v.state.mem E.off pageOff = m at h' hframe
  refine ⟨_, m, rfl, h', fun k q' => ?_, fun y hy => Function.update_of_ne hy _ _, ?_,
    P, hP, hframe⟩
  · rw [Function.update_self, FileLog.all_mark]
    exact liveAt_mark (h.log x hx).log.nodup (h.stored hx) (mem_entriesIn.2 ⟨P, hP, hE⟩) hq
  · rw [Function.update_self, FileLog.all_mark, pagesOf_entriesIn_mark]

theorem Filed.indexed_mem (h : v.Filed A F logs) : v.Indexed := fun x hx key hkey =>
  (h.indexed x hx key hkey).imp_right (h.sound.filePage_iff hx).2

/-- The log page of a file is none of the pages that files have. -/
theorem Filed.page_ne (h : v.Filed A F logs) {y key : Nat} {P : LogPage} (hx : x ∈ v.files)
    (hP : P ∈ (logs x).all) (hy : y ∈ v.files) (hkey : v.state.index y key ≠ offsetNull) :
    P.page ≠ v.state.index y key := by
  intro hc
  by_cases hyx : y = x
  · subst hyx
    obtain ⟨Q, hQ, hq⟩ := mem_pagesOf_entriesIn.1 (h.indexed y hy key hkey).2.mem_pagesOf
    exact page_notMem_pagesOf (h.sound.log y hy).log.nodup hP hQ (hc ▸ hq)
  · exact h.sound.disjoint y hy x hx hyx (h.mem_own hy hkey) (hc ▸ mem_owned_page hP)

/-- Invalidating a page that the index does not have changes no file. -/
theorem Filed.invalidate (h : v.Filed A F logs) (hx : x ∈ v.files)
    (hlive : LiveData v.state.mem x T e j q) (hpos : invalidatePos v.state.mem e pageOff = j)
    (hstale : ∀ key, v.state.index x key ≠ q) :
    (∃ logs', Volume.Filed A F logs'
        ⟨{ v.state with mem := invalidateOldLogEntry v.state.mem e pageOff }, v.homes, v.files⟩ ∧
        pagesOf (entriesIn (logs' x).all) = pagesOf (entriesIn (logs x).all)) ∧
      Set.EqOn (invalidateOldLogEntry v.state.mem e pageOff) v.state.mem (metadata ∪ bytesOf F) ∧
      ∀ y ∈ v.files, fileOf { v.state with mem := invalidateOldLogEntry v.state.mem e pageOff } y =
        fileOf v.state y := by
  obtain ⟨logs', m', hm', h', hself, hother, hpages, P, hP, hframe⟩ :=
    h.sound.invalidate_live hx hlive hpos
  have hown : P.page ∈ (logs x).own := mem_owned_page hP
  rw [hm']
  refine ⟨⟨logs', ⟨h', fun y hy key hkey => ?_, h.unindexed⟩, hpages⟩,
    eqOn_of_inUse (A.rep_page h.sound.rep) hframe fun a ha =>
      ⟨P.page, h.sound.isPage_own hx _ hown, h.sound.own_notFree hx _ hown, ha⟩, fun y hy => ?_⟩
  · have hold := h.indexed y hy key hkey
    by_cases hyx : y = x
    · subst hyx
      exact ⟨hold.1, (hself _ _).2 ⟨hold.2, hstale key⟩⟩
    · rwa [hother y hyx]
  · have hpage := (h.sound.log x hx).isPage hP
    refine fileOf_eq (fun g _ => Field.get_congr fun a ha => hframe a fun hc => ?_) rfl
      fun key hkey => ?_
    · have hne : P.page ≠ (logs y).home := by
        intro hc
        exact (h.sound.home _ (h.sound.homes y hy)).2.2 x hx (hc ▸ mem_owned_page hP)
      refine Set.disjoint_left.1 ((h.sound.log y hy).inodeIn.disjoint_page hpage hne) ?_ hc
      have hfits := g.fits
      rw [Field.bytes, Set.mem_Ico] at ha
      rw [inodeBytes, Set.mem_Ico]
      omega
    · refine hframe.eqOn (Set.disjoint_left.2 fun a ha hc => ?_)
      have := hpage.apart (h.sound.isPage_own hy _ (h.mem_own hy hkey)) (h.page_ne hx hP hy hkey)
      rw [mem_pageBytes] at ha
      rw [mem_bodyBytes] at hc
      omega

/-- Invalidating a page that the index has leaves the index with a page that the file has not. -/
theorem Filed.not_indexed (h : v.Filed A F logs) (hx : x ∈ v.files)
    (hlive : LiveData v.state.mem x T e j q) (hpos : invalidatePos v.state.mem e pageOff = j)
    {key : Nat} (hkey : v.state.index x key = q) :
    ¬ Volume.Indexed
      ⟨{ v.state with mem := invalidateOldLogEntry v.state.mem e pageOff }, v.homes, v.files⟩ := by
  obtain ⟨logs', m', hm', h', hself, -⟩ := h.sound.invalidate_live hx hlive hpos
  rw [hm']
  intro hindexed
  have hne : q ≠ offsetNull := by
    obtain ⟨P, hP, -, E, hE, -, hq, -⟩ := (h.sound.liveData_iff hx).1 hlive
    have hmem := List.mem_of_getElem? hq
    exact ((((h.sound.log x hx).log.rep P hP).stored E hE).chain.page q hmem).ne_offsetNull
  obtain ⟨-, hpage⟩ := hindexed x hx key (show v.state.index x key ≠ offsetNull from hkey ▸ hne)
  exact ((hself _ _).1 ((h'.filePage_iff hx).1 hpage)).2 hkey

/-! ## One call -/

/-- Taking a page for inodes changes no file. -/
theorem Filed.home {node : Nat} (h : v.Filed A F logs)
    (halloc : A.allocFreePages v.state 1 = .ok (node, s)) :
    (∃ F' logs', Volume.Filed A F' logs' ⟨s, ListNode.offset.get s.mem node :: v.homes, v.files⟩) ∧
      ∀ y ∈ v.files, fileOf s y = fileOf v.state y := by
  obtain ⟨p, l, F₁, hnode, -, hall⟩ := PageAllocator.allocFreePages_spec h.sound.rep le_rfl halloc
  obtain ⟨F', -, h'⟩ := h.sound.takeHome halloc
  refine ⟨⟨F', logs, h', fun y hy key hkey => ?_, fun y hy key => ?_⟩, fun y hy => ?_⟩
  · simp only [hall.index] at hkey ⊢
    exact h.indexed y hy key hkey
  · exact (congrFun (congrFun hall.index y) key).trans (h.unindexed y hy key)
  · have hly := h.sound.log y hy
    obtain ⟨hr, hrF, -⟩ := h.sound.home _ (h.sound.homes y hy)
    refine h.fileOf_kept hy (congrFun hall.index y) ⟨fun q hq => ?_, ?_⟩
    · exact hall.keeps h.sound.rep (h.sound.isPage_own hy q hq) (h.sound.own_notFree hy q hq)
    · exact (hall.keeps h.sound.rep hr hrF).mono hly.inodeIn.subset_page

/-- A new file is empty, and the others are what they were. -/
theorem Filed.init {p : Nat} (h : v.Filed A F logs) (hp : p ∈ v.homes) (hin : InodeIn x p)
    (hapart : ∀ y ∈ v.files, x + 216 ≤ y ∨ y + 216 ≤ x) (hclean : v.Clean A (.init x))
    (hinit : initAtfsInode A v.state x = .ok s) :
    (∃ F' logs', Volume.Filed A F' logs' ⟨s, v.homes, x :: v.files⟩) ∧ fileOf s x = .empty ∧
      ∀ y ∈ v.files, fileOf s y = fileOf v.state y := by
  have hxnot : x ∉ v.files := fun hc => by
    have := hapart x hc
    omega
  obtain ⟨f, hf, h'⟩ := h.sound.init_empty hp hin hapart hclean hinit
  have hnone (key : Nat) : s.index x key = offsetNull :=
    (congrFun (congrFun hf.index x) key).trans (h.unindexed x hxnot key)
  refine ⟨⟨_, _, h', fun y hy key hkey => ?_, fun y hy key => ?_⟩, ?_, fun y hy => ?_⟩
  · rcases List.mem_cons.1 hy with rfl | hy
    · exact absurd (hnone key) hkey
    · have hyx : y ≠ x := fun hc => hxnot (hc ▸ hy)
      rw [Function.update_of_ne hyx]
      simp only [hf.index] at hkey ⊢
      exact h.indexed y hy key hkey
  · exact (congrFun (congrFun hf.index y) key).trans
      (h.unindexed y (fun hc => hy (List.mem_cons_of_mem _ hc)) key)
  · refine PagedFile.ext hf.fileOff hf.iSize (Set.eq_empty_iff_forall_notMem.2 fun k hk =>
      hk (hnone _))
      (funext fun z => if_neg fun hc => hc (hnone _))
  · refine h.fileOf_kept hy (congrFun hf.index y)
      (h.sound.keeps (U := ∅) hin hp (by simp) hy (by simp) (by simp)
      (hapart y hy) (hf.frame.mono ?_))
    rintro a (ha | ha)
    · rw [reachBytes, Set.union_empty]
      exact .inl (allocatorBytes_subset ha)
    · exact .inr ha

/-- Collecting a log changes no file. -/
theorem Filed.gc {fuel : Nat} (h : v.Filed A F logs) (hx : x ∈ v.files)
    (hgc : gcInode A x fuel v.state = .ok s) :
    (∃ F' logs', Volume.Filed A F' logs' ⟨s, v.homes, v.files⟩) ∧
    (∀ y ∈ v.files, SameFileIn y v.state.mem s.mem) ∧
      ∀ y ∈ v.files, fileOf s y = fileOf v.state y := by
  obtain ⟨F', logs', h', hindex, hlive, hsame⟩ := h.sound.gc_keeps hx hgc
  refine ⟨⟨F', logs', h', fun y hy key hkey => ?_, fun y hy key => ?_⟩, hsame, fun y hy => ?_⟩
  · simp only [hindex] at hkey ⊢
    exact (h.indexed y hy key hkey).imp_right (hlive y hy _ _).2
  · exact (congrFun (congrFun hindex y) key).trans (h.unindexed y hy key)
  · refine fileOf_eq (hsame y hy).word (congrFun hindex y) fun key hkey => ?_
    have hpage := (h.sound.filePage_iff hy).2 (h.indexed y hy key hkey).2
    exact (hsame y hy).body _ _ (((hsame y hy).pages _ _).2 hpage)

end Step

end Volume

end Atfs
