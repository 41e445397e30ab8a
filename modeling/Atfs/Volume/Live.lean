import Atfs.Volume.Names

/-!
# The pages of the files of a volume

In memory the log of an inode says which pages the file has. A write adds the pages it has written,
and `gc_log_block` keeps the pages of every file and what is on them.
-/

namespace Atfs

open ByteMemory LinkedChain

/-- The page `q` is valid in the log of the inode and holds page number `k` of the file. -/
def FilePage (m : Memory) (inode k q : Nat) : Prop :=
  ∃ T e j, LiveData m inode T e j q ∧
    addU64 (FileLogEntry.startWriteOff.get m e) (j * pageSize) / pageSize = k

/-! ## The pages of a write -/

section Chunks

variable {v : WriteVars} {es : List LogEntry} {E : LogEntry} {start k q : Nat}

theorem Chunks.length_pagesOf (h : Chunks v es) : (pagesOf es).length = v.pageNums := by
  induction h with
  | done h => rw [h, pagesOf_nil, List.length_nil]
  | @chunk v E es userBuf logTail pos length _ _ _ _ rest ih =>
    have hn := v.allocNum_eq
    have hnext : (v.next userBuf logTail).pageNums = v.pageNums - v.allocNum := rfl
    rw [pagesOf_cons, List.length_append, ih, length]
    omega

/-- No page of a new entry is invalid. -/
theorem Chunks.bitmap (h : Chunks v es) : ∀ E ∈ es, E.bitmap = 0 := by
  induction h with
  | done => simp
  | chunk _ _ _ _ _ _ _ valid _ ih =>
    intro N hN
    rcases List.mem_cons.1 hN with rfl | hN
    · exact valid.2
    · exact ih N hN

theorem Chunks.tiles_of_le (h : Chunks v es) (hle : v.pageNums ≤ 64) : Tiles v.startPage es := by
  cases h with
  | done => trivial
  | chunk userBuf logTail pos length startWriteOff _ _ _ rest =>
    refine ⟨startWriteOff, ?_⟩
    have hn := v.allocNum_eq
    have hnext : (v.next userBuf logTail).pageNums = v.pageNums - v.allocNum := rfl
    cases rest with
    | done => trivial
    | chunk _ _ pos => omega

theorem liveAt_cons : LiveAt (E :: es) k q ↔
    (∃ i, E.pages[i]? = some q ∧ E.invalid i = false ∧ E.filePage i = k) ∨ LiveAt es k q := by
  simp [LiveAt]

/-- Entries that cover consecutive pages of the file hold them in this order. -/
theorem Tiles.liveAt (ht : Tiles start es) (hal : start % 4096 = 0)
    (hb : start + 4096 * (pagesOf es).length ≤ 2 ^ 64) (hvalid : ∀ E ∈ es, E.bitmap = 0) :
    LiveAt es k q ↔ ∃ i, (pagesOf es)[i]? = some q ∧ start / 4096 + i = k := by
  induction es generalizing start with
  | nil => simp
  | cons E es ih =>
    obtain ⟨hstart, ht⟩ := ht
    rw [pagesOf_cons, List.length_append] at hb
    rw [liveAt_cons, ih ht (by omega) (by omega) fun N hN => hvalid N (by simp [hN]), pagesOf_cons]
    have hpage {i : Nat} (hi : i < E.pages.length) : E.filePage i = start / 4096 + i := by
      rw [LogEntry.filePage, hstart, pageSize_eq, addU64_of_lt (by omega)]
      omega
    constructor
    · rintro (⟨i, hq, -, rfl⟩ | ⟨i, hq, rfl⟩)
      · have hi := (List.getElem?_eq_some_iff.1 hq).1
        exact ⟨i, by rwa [List.getElem?_append_left hi], (hpage hi).symm⟩
      · refine ⟨E.pages.length + i, ?_, by omega⟩
        rw [List.getElem?_append_right (by omega), Nat.add_sub_cancel_left, hq]
    · rintro ⟨i, hq, rfl⟩
      by_cases hi : i < E.pages.length
      · rw [List.getElem?_append_left hi] at hq
        refine .inl ⟨i, hq, ?_, hpage hi⟩
        rw [LogEntry.invalid, hvalid E (by simp), Nat.zero_testBit]
      · rw [List.getElem?_append_right (by omega)] at hq
        exact .inr ⟨i - E.pages.length, hq, by omega⟩

end Chunks

section Write

variable {A : PageAllocator} {f f' : Frontier} {s s' : State} {es : List LogEntry}
  {inode cnt fileOff k q : Nat}

/-- How many pages are written, also if nothing is. -/
theorem writeVars_pageNums_of_ne (m : Memory) (inode : Nat) (hb : fileOff + cnt < 2 ^ 64)
    (hodd : cnt = 0 → fileOff % 4096 ≠ 0) :
    (writeVars m inode cnt fileOff).pageNums = (cnt + fileOff % 4096 + 4095) / 4096 := by
  rw [writeVars]
  simp only [and_pageOffsetMask]
  rw [addU64_of_lt (a := cnt) (by omega), subU64_of_le (by omega) (by omega),
    Nat.shiftRight_eq_div_pow, show 2 ^ pageShift = 4096 from rfl, addU64_of_lt (by omega)]
  omega

theorem Appended.length_pagesOf (h : Appended A inode cnt fileOff f f' s s' es)
    (hb : fileOff + cnt < 2 ^ 64) (hodd : cnt = 0 → fileOff % 4096 ≠ 0) :
    (pagesOf es).length = (cnt + fileOff % 4096 + 4095) / 4096 := by
  rw [h.chunks.length_pagesOf, writeVars_pageNums_of_ne s.mem inode hb hodd]

/-- The pages that a write adds to the file. -/
theorem Appended.liveAt_iff (h : Appended A inode cnt fileOff f f' s s' es)
    (hb : fileOff + cnt < 2 ^ 64) (hodd : cnt = 0 → fileOff % 4096 ≠ 0) :
    LiveAt es k q ↔ ∃ i, (pagesOf es)[i]? = some q ∧ fileOff / 4096 + i = k := by
  have hlen := h.length_pagesOf hb hodd
  have hstart := writeVars_startPage s.mem inode cnt (show fileOff < 2 ^ 64 by omega)
  have ht : Tiles (fileOff / 4096 * 4096) es := by
    rw [← hstart]
    rcases Nat.eq_zero_or_pos cnt with rfl | hpos
    · refine h.chunks.tiles_of_le ?_
      rw [writeVars_pageNums_of_ne s.mem inode hb hodd]
      omega
    · exact h.chunks.tiles (writeVars_valid s.mem inode hpos hb)
  rw [ht.liveAt (by omega) (by omega) h.chunks.bitmap,
    Nat.mul_div_cancel _ (show 0 < 4096 by decide)]

end Write

/-! ## The pages in memory -/

section Live

variable {Ps : List LogPage} {k k' q : Nat}

theorem pagesOf_entriesIn_sublist (Ps : List LogPage) :
    (pagesOf (entriesIn Ps)).Sublist (owned Ps) := by
  induction Ps with
  | nil => exact List.Sublist.slnil
  | cons P Ps ih =>
    rw [entriesIn_cons, owned_cons, LogPage.own, pagesOf, List.flatMap_append]
    exact ((List.sublist_cons_self _ _).append ih)

theorem LiveAt.mem_own {l : FileLog} (h : LiveAt (entriesIn l.all) k q) : q ∈ l.own := by
  obtain ⟨P, hP, hq⟩ := mem_pagesOf_entriesIn.1 h.mem_pagesOf
  exact mem_owned.2 ⟨P, hP, List.mem_cons_of_mem _ hq⟩

/-- A page holds one page of the file only. -/
theorem liveAt_unique (hnodup : (owned Ps).Nodup) (h : LiveAt (entriesIn Ps) k q)
    (h' : LiveAt (entriesIn Ps) k' q) : k = k' := by
  obtain ⟨E, hE, i, hq, -, rfl⟩ := h
  obtain ⟨E', hE', i', hq', -, rfl⟩ := h'
  obtain ⟨rfl, rfl⟩ := eq_of_mem_pages ((pagesOf_entriesIn_sublist Ps).nodup hnodup) hE hE' hq hq'
  rfl

end Live

namespace Volume

section Sound

variable {A : PageAllocator} {F : Set Nat} {logs : Nat → FileLog} {v : Volume} {s : State}
  {x k q : Nat} {steps : List (Volume × VolumeCall)}

/-- The pages of a file are those that its log says it has. -/
theorem Sound.filePage_iff (h : v.Sound A F logs) (hx : x ∈ v.files) :
    FilePage v.state.mem x k q ↔ LiveAt (entriesIn (logs x).all) k q := by
  constructor
  · rintro ⟨T, e, j, hlive, rfl⟩
    obtain ⟨P, hP, rfl, E, hE, rfl, hq, hvalid⟩ := (h.liveData_iff hx).1 hlive
    refine ⟨E, mem_entriesIn.2 ⟨P, hP, hE⟩, j, hq, hvalid, ?_⟩
    rw [LogEntry.filePage, (((h.log x hx).log.rep P hP).stored E hE).words.startWriteOff]
  · rintro ⟨E, hE, j, hq, hvalid, rfl⟩
    obtain ⟨P, hP, hE⟩ := mem_entriesIn.1 hE
    refine ⟨P.page, E.off, j, (h.liveData_iff hx).2 ⟨P, hP, rfl, E, hE, rfl, hq, hvalid⟩, ?_⟩
    rw [LogEntry.filePage, (((h.log x hx).log.rep P hP).stored E hE).words.startWriteOff]

/-- What a file is in memory: its pages, what is on them, and the words of its inode but for the
ends of its log. -/
structure SameFileIn (inode : Nat) (m m' : Memory) : Prop where
  pages : ∀ k q, FilePage m' inode k q ↔ FilePage m inode k q
  body : ∀ k q, FilePage m' inode k q → Set.EqOn m' m (bodyBytes q)
  word : ∀ g : Field 216, g.off + g.size ≤ 56 ∨ 72 ≤ g.off → g.get m' inode = g.get m inode

/-- A log collected: all files are what they were. -/
theorem Sound.gc_keeps {fuel : Nat} (h : v.Sound A F logs) (hx : x ∈ v.files)
    (hgc : gcInode A x fuel v.state = .ok s) :
    ∃ F' logs', Volume.Sound A F' logs' ⟨s, v.homes, v.files⟩ ∧ s.index = v.state.index ∧
      (∀ y ∈ v.files, ∀ k q, LiveAt (entriesIn (logs' y).all) k q ↔
        LiveAt (entriesIn (logs y).all) k q) ∧
      ∀ y ∈ v.files, SameFileIn y v.state.mem s.mem := by
  obtain ⟨F', Z, last', evs, -, h', hframe, hkept, hindex, -⟩ := h.gc_repacked hx hgc
  generalize hlogs : Function.update logs x ⟨(logs x).home,
    (logs x).pages.filter (!·.picked) ++ Z, last'⟩ =
    logs' at h'
  have hlive : ∀ y ∈ v.files, ∀ k q, LiveAt (entriesIn (logs' y).all) k q ↔
      LiveAt (entriesIn (logs y).all) k q := by
    intro y hy k q
    rw [← hlogs]
    by_cases hyx : y = x
    · rw [hyx, Function.update_self]
      exact hkept.live k q
    · rw [Function.update_of_ne hyx]
  refine ⟨F', logs', h', hindex, hlive, fun y hy => ?_⟩
  have hpages (k q : Nat) : FilePage s.mem y k q ↔ LiveAt (entriesIn (logs y).all) k q :=
    (h'.filePage_iff hy).trans (hlive y hy k q)
  refine ⟨fun k q => (hpages k q).trans (h.filePage_iff hy).symm, fun k q hq => ?_, fun g hg => ?_⟩
  · rw [hpages] at hq
    by_cases hyx : y = x
    · subst hyx
      exact hkept.body k q ((hkept.live k q).2 hq)
    · refine ((h.keeps_other hx hy hyx hframe).1 q hq.mem_own).mono fun a ha => ?_
      rw [mem_bodyBytes] at ha
      rw [mem_pageBytes]
      omega
  · by_cases hyx : y = x
    · subst hyx
      exact hkept.word g hg
    · refine Field.get_congr fun a ha => (h.keeps_other hx hy hyx hframe).2 ?_
      have hfits := g.fits
      rw [Field.bytes, Set.mem_Ico] at ha
      rw [inodeBytes, Set.mem_Ico]
      omega

end Sound

end Volume

end Atfs
