import Atfs.Log.Step

/-!
# Log entries

What `init_log_entry` leaves in the slot and in the counters of its page, and when an
entry in memory describes the chain of data pages it owns.
-/

namespace Atfs

open ByteMemory LinkedChain

/-- The bytes `init_log_entry` writes: the slot and the page count of the log page. -/
def entryBytes (T e : Nat) : Set Nat := Set.Ico e (e + 48) ∪ Set.Ico (T + 4120) (T + 4124)

@[simp] theorem mem_entryBytes {T e a : Nat} : a ∈ entryBytes T e ↔
    e ≤ a ∧ a < e + 48 ∨ T + 4120 ≤ a ∧ a < T + 4124 := Iff.rfl

/-- A log entry: where it stands, the data pages it owns and its other words. -/
structure LogEntry where
  off : Nat
  pages : List Nat
  fileSize : Nat
  startWriteOff : Nat
  endWriteOff : Nat
  invalidPages : Nat
  bitmap : Nat

/-- The head of the data chain. -/
def LogEntry.data (E : LogEntry) : Nat := E.pages.headD offsetNull

/-- The words of the entry stand in its slot. -/
structure LogEntry.Words (E : LogEntry) (m : Memory) : Prop where
  data : FileLogEntry.data.get m E.off = E.data
  fileSize : FileLogEntry.fileSize.get m E.off = E.fileSize
  startWriteOff : FileLogEntry.startWriteOff.get m E.off = E.startWriteOff
  endWriteOff : FileLogEntry.endWriteOff.get m E.off = E.endWriteOff
  numPages : FileLogEntry.numPages.get m E.off = E.pages.length
  invalidPages : FileLogEntry.invalidPages.get m E.off = E.invalidPages
  bitmap : FileLogEntry.bitmap.get m E.off = E.bitmap

/-- The entry owns between 1 and 64 pages, chained in memory. -/
structure LogEntry.Stored (E : LogEntry) (m : Memory) : Prop where
  words : E.Words m
  chain : PageChain m E.data E.pages
  pos : 1 ≤ E.pages.length
  le : E.pages.length ≤ 64

/-- All data pages of a list of entries. -/
def pagesOf (es : List LogEntry) : List Nat := es.flatMap (·.pages)

@[simp] theorem pagesOf_nil : pagesOf [] = [] := rfl

@[simp] theorem pagesOf_cons (E : LogEntry) (es : List LogEntry) :
    pagesOf (E :: es) = E.pages ++ pagesOf es := List.flatMap_cons

theorem mem_pagesOf {es : List LogEntry} {q : Nat} : q ∈ pagesOf es ↔ ∃ E ∈ es, q ∈ E.pages :=
  List.mem_flatMap

section Place

variable {A : PageAllocator} {D : Set Nat} {f f' : Frontier} {ts : List Nat} {m m' m'' : Memory}
  {e : Nat}

/-- Filling in the slot a step has advanced past extends the step. -/
theorem LogStep.writeEntry (h : LogStep A D f f' ts m m')
    (hslot : f'.page = f.page ∧ e = f.tail ∨ f'.page ∈ f.free ∧ e = f'.page)
    (htail : f'.tail = e + 48) (hf : f.Holds A m)
    (hW : ChangesOnly (entryBytes f'.page e) m' m'') : LogStep A D f f' ts m m'' := by
  have hle := hf.le_tail
  have hle' := h.holds.tail_le
  have hpe : f'.page ≤ e := by
    rcases hslot with ⟨hp, rfl⟩ | ⟨-, rfl⟩
    · omega
    · exact le_rfl
  refine h.write_inside hW (fun a ha => .inl ?_) fun a ha =>
    ⟨f'.page, h.holds.isPage, h.holds.notFree, ?_, ?_⟩
  · rw [mem_entryBytes] at ha
    rcases hslot with ⟨hp, rfl⟩ | ⟨hp, rfl⟩
    · refine .inr ?_
      rw [hp] at ha hle'
      rw [mem_tailBytes]
      omega
    · refine .inl (.inr ⟨f'.page, ⟨hp, h.holds.notFree⟩, ?_⟩)
      rw [mem_pageBytes]
      omega
  · rw [mem_entryBytes] at ha
    rw [mem_pageBytes]
    omega
  · rw [mem_entryBytes] at ha
    rw [mem_linkBytes]
    omega

end Place

section InitLogEntry

variable {T e pages fileSize allocNum startWriteOff endWriteOff : Nat}

theorem changesOnly_initLogEntry (hT : IsPage T) (he : T ≤ e) (he' : e + 48 ≤ T + 4096)
    (m : Memory) :
    ChangesOnly (entryBytes T e) m
      (initLogEntry m e pages fileSize allocNum startWriteOff endWriteOff) := by
  have hnode : entry2logPage e = T + 4096 := hT.entry2logPage_eq (by rw [mem_pageBytes]; omega)
  have field (f : Field 48) (m : Memory) (v : Nat) : ChangesOnly (entryBytes T e) m (f.set m e v) :=
    (f.changesOnly_set m e v).mono fun a ha => by
      have := f.fits
      rw [Field.bytes, Set.mem_Ico] at ha
      rw [mem_entryBytes]
      omega
  have count (v : Nat) : ChangesOnly (entryBytes T e) m (ListNode.pagesCnt.set m (T + 4096) v) :=
    (ListNode.pagesCnt.changesOnly_set m _ v).mono fun a ha => by
      simp only [Field.bytes, ListNode.pagesCnt_off, ListNode.pagesCnt_size, Set.mem_Ico] at ha
      rw [mem_entryBytes]
      omega
  have zero (m : Memory) : ChangesOnly (entryBytes T e) m (fill m e sizeofFileLogEntry 0) :=
    (changesOnly_fill m e _ 0).mono fun a ha => .inl ha
  rw [initLogEntry, hnode]
  exact ((((((count _).trans (zero _)).trans (field _ _ _)).trans (field _ _ _)).trans
    (field _ _ _)).trans (field _ _ _)).trans (field _ _ _)

/-- The words `init_log_entry` leaves in the slot. -/
theorem words_initLogEntry (E : LogEntry) (hd : E.data < 2 ^ 64) (hs : E.fileSize < 2 ^ 64)
    (hn : E.pages.length < 2 ^ 32) (hb : E.startWriteOff < 2 ^ 64) (hc : E.endWriteOff < 2 ^ 64)
    (hi : E.invalidPages = 0) (hm : E.bitmap = 0) (m : Memory) :
    E.Words (initLogEntry m E.off E.data E.fileSize E.pages.length E.startWriteOff
      E.endWriteOff) := by
  have zero (f : Field 48) (m : Memory) : f.get (fill m E.off sizeofFileLogEntry 0) E.off = 0 :=
    load_fill_zero m (Nat.le_add_right _ _) (by
      have := f.fits
      rw [show sizeofFileLogEntry = 48 from rfl]
      omega)
  rw [initLogEntry]
  refine ⟨?_, ?_, ?_, ?_, ?_, ?_, ?_⟩
  · rw [Field.get_set_of_disjoint _ _ _ (by simp), Field.get_set_of_disjoint _ _ _ (by simp),
      Field.get_set_of_disjoint _ _ _ (by simp), Field.get_set_of_disjoint _ _ _ (by simp),
      Field.get_set_self_of_lt _ _ hd]
  · rw [Field.get_set_of_disjoint _ _ _ (by simp), Field.get_set_of_disjoint _ _ _ (by simp),
      Field.get_set_of_disjoint _ _ _ (by simp), Field.get_set_self_of_lt _ _ hs]
  · rw [Field.get_set_of_disjoint _ _ _ (by simp), Field.get_set_of_disjoint _ _ _ (by simp),
      Field.get_set_self_of_lt _ _ hb]
  · rw [Field.get_set_of_disjoint _ _ _ (by simp), Field.get_set_self_of_lt _ _ hc]
  · rw [Field.get_set_self_of_lt _ _ hn]
  · rw [Field.get_set_of_disjoint _ _ _ (by simp), Field.get_set_of_disjoint _ _ _ (by simp),
      Field.get_set_of_disjoint _ _ _ (by simp), Field.get_set_of_disjoint _ _ _ (by simp),
      Field.get_set_of_disjoint _ _ _ (by simp), zero, hi]
  · rw [Field.get_set_of_disjoint _ _ _ (by simp), Field.get_set_of_disjoint _ _ _ (by simp),
      Field.get_set_of_disjoint _ _ _ (by simp), Field.get_set_of_disjoint _ _ _ (by simp),
      Field.get_set_of_disjoint _ _ _ (by simp), zero, hm]

end InitLogEntry

section InitEntry

variable {A : PageAllocator} {D : Set Nat} {f f' : Frontier} {m₀ m m' : Memory} {e p : Nat}
  {l : List Nat}

/-- The slot of an entry lies in the page the log has advanced to. -/
theorem LogStep.slot_bounds (h : LogStep A D f f' [f.tail] m₀ m) (hf : f.Holds A m₀)
    (hslot : f'.page = f.page ∧ e = f.tail ∨ f'.page ∈ f.free ∧ e = f'.page)
    (htail : f'.tail = e + 48) : f'.page ≤ e ∧ e + 48 ≤ f'.page + 4096 := by
  have h1 := h.holds.tail_le
  have h2 := hf.le_tail
  rcases hslot with ⟨hp, ht⟩ | ⟨-, ht⟩ <;> omega

/-- `init_log_entry` on the slot a step has advanced past stores an entry that owns the chain. -/
theorem LogStep.initEntry (h : LogStep A D f f' [f.tail] m₀ m) (hf : f.Holds A m₀)
    (hslot : f'.page = f.page ∧ e = f.tail ∨ f'.page ∈ f.free ∧ e = f'.page)
    (htail : f'.tail = e + 48) (hl : PageChain m p l) (hpos : 1 ≤ l.length) (hle : l.length ≤ 64)
    (hne : f'.page ∉ l) {fileSize start stop : Nat} (hsize : fileSize < 2 ^ 64)
    (hstart : start < 2 ^ 64) (hstop : stop < 2 ^ 64)
    (hm : m' = initLogEntry m e p fileSize l.length start stop) :
    LogStep A D f f' [f.tail] m₀ m' ∧ nextSlot m' f.tail = e ∧
      (∀ q ∈ l, Set.EqOn m' m (pageBytes q)) ∧
      LogEntry.Stored ⟨e, l, fileSize, start, stop, 0, 0⟩ m' := by
  have hT := h.holds.isPage
  have he := h.slot_bounds hf hslot htail
  have hp := hl.headD_eq
  have hentry : ChangesOnly (entryBytes f'.page e) m m' :=
    hm ▸ changesOnly_initLogEntry hT he.1 he.2 m
  have hkeep : ∀ q ∈ l, Set.EqOn m' m (pageBytes q) := by
    intro q hq a ha
    refine hentry a fun hmem => ?_
    have := (hl.page q hq).apart hT (by rintro rfl; exact hne hq)
    simp only [mem_pageBytes, mem_entryBytes] at *
    omega
  have step := h.writeEntry hslot htail hf hentry
  have hpath := (segment_cons.1 step.path).2
  rw [slotEnd_eq, segment_nil, htail] at hpath
  have hdata : l.headD offsetNull < 2 ^ 64 := by
    rw [hp]
    have := (hl.page p (hl.head_mem hpos)).bounds
    omega
  refine ⟨step, by omega, hkeep, ⟨?_, ?_, hpos, hle⟩⟩
  · obtain rfl : m' = initLogEntry m e (l.headD offsetNull) fileSize l.length start stop := by
      rw [hm, hp]
    exact words_initLogEntry ⟨e, l, fileSize, start, stop, 0, 0⟩ hdata hsize (by simp only; omega)
      hstart hstop rfl rfl m
  · rw [LogEntry.data, hp]
    exact hl.congr fun q hq a ha => hkeep q hq (by
      rw [Set.mem_Ico] at ha
      rw [mem_pageBytes]
      omega)

end InitEntry

section Congr

variable {E : LogEntry} {m m' : Memory}

/-- The words of an entry are decided by the bytes of its slot. -/
theorem LogEntry.Words.congr (h : E.Words m) (heq : Set.EqOn m' m (Set.Ico E.off (E.off + 48))) :
    E.Words m' := by
  have field (f : Field 48) : f.get m' E.off = f.get m E.off := Field.get_congr fun a ha => heq (by
    have := f.fits
    rw [Field.bytes, Set.mem_Ico] at ha
    rw [Set.mem_Ico]
    omega)
  obtain ⟨h1, h2, h3, h4, h5, h6, h7⟩ := h
  exact ⟨(field _).trans h1, (field _).trans h2, (field _).trans h3, (field _).trans h4,
    (field _).trans h5, (field _).trans h6, (field _).trans h7⟩

theorem LogEntry.Stored.congr (h : E.Stored m) (hslot : Set.EqOn m' m (Set.Ico E.off (E.off + 48)))
    (hnodes : ∀ q ∈ E.pages, Set.EqOn m' m (Set.Ico (q + 4096) (q + 4112))) : E.Stored m' where
  words := h.words.congr hslot
  chain := h.chain.congr hnodes
  pos := h.pos
  le := h.le

/-- What a step leaves of an entry that an earlier step has appended. -/
theorem LogEntry.Stored.step {A : PageAllocator} {D : Set Nat} {f f' : Frontier} {ts : List Nat}
    (h : E.Stored m) (hs : LogStep A D f f' ts m m') (hf : f.Holds A m)
    (hslot : f.page ≤ E.off ∧ E.off + 48 ≤ f.tail) (hfresh : ∀ q ∈ E.pages, q ∉ f.free ∧ q ≠ f.page)
    (hD : ∀ a ∈ D, a ∉ Set.Ico E.off (E.off + 48) ∧
      ∀ q ∈ E.pages, a ∉ Set.Ico (q + 4096) (q + 4112)) : E.Stored m' := by
  refine h.congr (fun a ha => ?_) fun q hq a ha => ?_
  · refine hs.keeps_tail hf ?_ fun hc => (hD a hc).1 ha
    rw [Set.mem_Ico] at ha
    omega
  · refine hs.keeps hf (h.chain.page q hq) (hfresh q hq).1 (hfresh q hq).2 ?_
      fun hc => (hD a hc).2 q hq ha
    rw [Set.mem_Ico] at ha
    rw [mem_pageBytes]
    omega

end Congr

end Atfs
