import Atfs.Log.Entry

/-!
# Appending an entry

`get_log_entry` followed by `init_log_entry`, whatever happens to the data pages in between:
where the entry goes, what it does to the counters of its page, and what the run records of it.
-/

namespace Atfs

open ByteMemory LinkedChain

/-! ## Counters -/

/-- The counters in the node of a log page. -/
@[ext] structure Counters where
  objCnt : Nat
  invalidCnt : Nat
  pagesCnt : Nat
  invalidPages : Nat
  deriving DecidableEq

def counters (m : Memory) (T : Nat) : Counters where
  objCnt := ListNode.objCnt.get m (T + 4096)
  invalidCnt := ListNode.invalidCnt.get m (T + 4096)
  pagesCnt := ListNode.pagesCnt.get m (T + 4096)
  invalidPages := ListNode.invalidPages.get m (T + 4096)

/-- The counters of a page after an entry of `n` pages is appended to it. -/
def Counters.append (c : Counters) (n : Nat) : Counters :=
  { c with objCnt := (c.objCnt + 1) % 2 ^ 32, pagesCnt := (c.pagesCnt + n) % 2 ^ 32 }

theorem counters_congr {m m' : Memory} {T : Nat}
    (h : Set.EqOn m' m (Set.Ico (T + 4112) (T + 4128))) : counters m' T = counters m T := by
  have field (f : Field 40) (hf : 16 ≤ f.off ∧ f.off + f.size ≤ 32) :
      f.get m' (T + 4096) = f.get m (T + 4096) := Field.get_congr fun a ha => h (by
    rw [Field.bytes, Set.mem_Ico] at ha
    rw [Set.mem_Ico]
    omega)
  rw [counters, counters, field _ (by decide), field _ (by decide), field _ (by decide),
    field _ (by decide)]

/-! ## Events -/

def Event.isAlloc : Event → Bool
  | .alloc _ _ => true
  | _ => false

/-- Between two states the run has recorded the events `evs`, the newest first, and
allocations. -/
def Recorded (evs : List Event) (s s' : State) : Prop :=
  ∃ new, s'.trace = new ++ s.trace ∧ new.filter (!·.isAlloc) = evs

theorem Recorded.refl (s : State) : Recorded [] s s := ⟨[], rfl, rfl⟩

theorem Recorded.trans {s s' s'' : State} {evs evs' : List Event} (h : Recorded evs s s')
    (h' : Recorded evs' s' s'') : Recorded (evs' ++ evs) s s'' := by
  obtain ⟨new, hnew, rfl⟩ := h
  obtain ⟨new', hnew', rfl⟩ := h'
  exact ⟨new' ++ new, by rw [hnew', hnew, List.append_assoc], List.filter_append ..⟩

theorem Recorded.cons {s s' s'' : State} {evs : List Event} {ev : Event} (h : Recorded evs s s')
    (hev : ev.isAlloc = false) (htrace : s''.trace = ev :: s'.trace) :
    Recorded (ev :: evs) s s'' := by
  obtain ⟨new, hnew, rfl⟩ := h
  exact ⟨ev :: new, by rw [htrace, hnew, List.cons_append], by simp [hev]⟩

/-- The entry handed out in an event. -/
def Event.entry? : Event → Option Nat
  | .logEntry e => some e
  | _ => none

/-- The entries handed out so far, the oldest first. -/
def entriesOf (trace : List Event) : List Nat := (trace.filterMap Event.entry?).reverse

theorem entriesOf_append (new old : List Event) :
    entriesOf (new ++ old) = entriesOf old ++ entriesOf new := by
  simp [entriesOf]

theorem entriesOf_filter (l : List Event) : entriesOf (l.filter (!·.isAlloc)) = entriesOf l := by
  rw [entriesOf, entriesOf, List.filterMap_filter]
  refine congrArg List.reverse (List.filterMap_congr fun a _ => ?_)
  cases a <;> rfl

/-- Allocations do not count as entries. -/
theorem Recorded.entriesOf {evs : List Event} {s s' : State} (h : Recorded evs s s') :
    entriesOf s'.trace = entriesOf s.trace ++ entriesOf evs := by
  obtain ⟨new, hnew, rfl⟩ := h
  rw [hnew, entriesOf_append, entriesOf_filter]

def Event.opened : Event → Nat
  | .logPage _ => 1
  | _ => 0

/-- The pages that have become the last of a log. -/
def pagesOpened (trace : List Event) : Nat := (trace.map Event.opened).sum

theorem pagesOpened_append (new old : List Event) :
    pagesOpened (new ++ old) = pagesOpened old + pagesOpened new := by
  rw [pagesOpened, List.map_append, List.sum_append, Nat.add_comm]
  rfl

/-! ## One entry -/

/-- How the end of a log grows by an entry of `n` pages in the slot `e`: inside the last page
`T`, or in a new page behind it. -/
inductive Grown (T tail e n : Nat) (m m' : Memory) : List Event → Prop
  | inside (room : tail ≤ T + 4048) (slot : e = tail)
      (counters : counters m' T = (counters m T).append n) : Grown T tail e n m m' [.logEntry e]
  | newPage (full : T + 4048 < tail) (ne : e ≠ T)
      (counters : counters m' e = ⟨1, 0, n % 2 ^ 32, 0⟩)
      (old : Atfs.counters m' T = Atfs.counters m T) (link : pageLink m' T = e)
      (offset : ListNode.offset.get m' (e + 4096) = e) :
      Grown T tail e n m m' [.logEntry e, .logPage e]

section Grown

variable {T tail e n : Nat} {m m₁ m' : Memory} {evs : List Event}

theorem Grown.entriesOf (h : Grown T tail e n m m' evs) : entriesOf evs = [e] := by
  cases h <;> rfl

/-- A page is opened exactly if the last one is full. -/
theorem Grown.pagesOpened (h : Grown T tail e n m m' evs) :
    pagesOpened evs = if T + 4048 < tail then 1 else 0 := by
  cases h with
  | inside room => rw [if_neg (by omega)]; rfl
  | newPage full => rw [if_pos full]; rfl

/-- The entry stands in the slot behind the tail. -/
theorem Grown.slot (h : Grown T tail e n m m' evs) (hT : IsPage T) (hle : T ≤ tail)
    (hle' : tail ≤ T + 4096) : nextSlot m' tail = e := by
  cases h with
  | inside room slot _ => rw [nextSlot_same hT hle room, slot]
  | newPage full _ _ _ link _ => rw [nextSlot_rollover hT full hle', link]

/-- Growth is seen from any memory that has the same last page. -/
theorem Grown.congr_left (h : Grown T tail e n m m' evs) (heq : Set.EqOn m m₁ (pageBytes T)) :
    Grown T tail e n m₁ m' evs := by
  have hc : counters m T = counters m₁ T := counters_congr (heq.mono fun a ha => by
    rw [Set.mem_Ico] at ha
    rw [mem_pageBytes]
    omega)
  cases h with
  | inside room slot counters => exact .inside room slot (hc ▸ counters)
  | newPage full ne counters old link offset =>
    exact .newPage full ne counters (hc ▸ old) link offset

end Grown

section Grow

variable {A : PageAllocator} {f : Frontier} {s s' : State} {e tail' n : Nat} {m m' : Memory}

theorem counters_set_objCnt {T v : Nat} (m : Memory) :
    counters (ListNode.objCnt.set m (T + 4096) v) T =
      { counters m T with objCnt := v % 2 ^ 32 } := by
  ext
  · exact Field.get_set_self _ _ _ _
  all_goals exact Field.get_set_of_disjoint _ _ _ (by simp)

theorem counters_joinLogPage {T : Nat} (m : Memory) : counters (joinLogPage m T e) e =
    ⟨1, 0, 0, 0⟩ := by
  rw [joinLogPage]
  ext
  · simp only [counters]
    rw [Field.get_set_of_disjoint _ _ _ (by simp),
      Field.get_set_of_disjoint _ _ _ (by simp), Field.get_set_self]
    rfl
  · simp only [counters]
    rw [Field.get_set_of_disjoint _ _ _ (by simp),
      Field.get_set_of_disjoint _ _ _ (by simp),
      Field.get_set_of_disjoint _ _ _ (by simp), Field.get_set_self]
    rfl
  · simp only [counters]
    rw [Field.get_set_self]
    rfl
  · simp only [counters]
    rw [Field.get_set_of_disjoint _ _ _ (by simp), Field.get_set_self]
    rfl

/-- `init_log_entry` adds to the count of pages. -/
theorem counters_initLogEntry {T pages fileSize start stop : Nat} (hT : IsPage T) (he : T ≤ e)
    (he' : e + 48 ≤ T + 4096) (m : Memory) :
    counters (initLogEntry m e pages fileSize n start stop) T =
      { counters m T with pagesCnt := (ListNode.pagesCnt.get m (T + 4096) + n) % 2 ^ 32 } := by
  have hnode : entry2logPage e = T + 4096 := hT.entry2logPage_eq (by rw [mem_pageBytes]; omega)
  have slot (g : Field 40) (f : Field 48) (m : Memory) (v : Nat) :
      g.get (f.set m e v) (T + 4096) = g.get m (T + 4096) := Field.get_set_of_apart _ _ _ (by omega)
  have zero (g : Field 40) (m : Memory) :
      g.get (fill m e sizeofFileLogEntry 0) (T + 4096) = g.get m (T + 4096) :=
    Field.get_fill_of_disjoint (by rw [show sizeofFileLogEntry = 48 from rfl]; omega)
  rw [initLogEntry, hnode]
  ext
  · simp only [counters, slot, zero]
    exact Field.get_set_of_disjoint _ _ _ (by simp)
  · simp only [counters, slot, zero]
    exact Field.get_set_of_disjoint _ _ _ (by simp)
  · simp only [counters, slot, zero]
    exact Field.get_set_self _ _ _ _
  · simp only [counters, slot, zero]
    exact Field.get_set_of_disjoint _ _ _ (by simp)

/-- The end of the log after `get_log_entry` and `init_log_entry`. -/
theorem grown_of_getLogEntry (hf : f.Holds A s.mem)
    (h : getLogEntry A s f.tail = .ok (e, tail', s')) {W : Set Nat} (hW : ChangesOnly W s'.mem m)
    (hT : Disjoint W (Set.Ico (f.page + 4096) (f.page + 4136)))
    (hE : f.page + 4048 < f.tail → Disjoint W (Set.Ico (e + 4096) (e + 4128)))
    {pages fileSize start stop : Nat}
    (hm' : m' = initLogEntry m e pages fileSize n start stop) :
    ∃ evs, Grown f.page f.tail e n s.mem m' evs ∧ Recorded evs s s' := by
  have hle := hf.le_tail
  have keepT : Set.EqOn m s'.mem (Set.Ico (f.page + 4096) (f.page + 4136)) := hW.eqOn hT
  rcases getLogEntry_cases hf h with ⟨hroom, rfl, rfl, rfl⟩ | ⟨hfull, s₁, F', hall, -, rfl, rfl⟩
  · refine ⟨[.logEntry f.tail], .inside hroom rfl ?_, [.logEntry f.tail], rfl, rfl⟩
    have hm : counters m f.page = counters (ListNode.objCnt.set s.mem (f.page + 4096)
        (ListNode.objCnt.get s.mem (f.page + 4096) + 1)) f.page :=
      counters_congr (keepT.mono fun a ha => by rw [Set.mem_Ico] at *; omega)
    rw [hm', counters_initLogEntry hf.isPage hle (by omega), hm, counters_set_objCnt,
      show ListNode.pagesCnt.get m (f.page + 4096) = (counters m f.page).pagesCnt from rfl, hm,
      counters_set_objCnt]
    rfl
  · have keepE : Set.EqOn m (joinLogPage s₁.mem f.page e) (Set.Ico (e + 4096) (e + 4128)) :=
      hW.eqOn (hE hfull)
    have he : IsPage e := hall.chain.page e (by simp)
    have heF : e ∈ f.free := hall.fresh e (by simp)
    have hne : e ≠ f.page := by
      rintro rfl
      exact hf.notFree heF
    have hchange : ChangesOnly (entryBytes e e) m m' :=
      hm' ▸ changesOnly_initLogEntry he le_rfl (by omega) m
    have happart := he.apart hf.isPage hne
    have keepT' : Set.EqOn m' m (Set.Ico (f.page + 4096) (f.page + 4136)) := by
      refine hchange.eqOn (Set.disjoint_left.2 fun a ha ha' => ?_)
      rw [mem_entryBytes] at ha
      rw [Set.mem_Ico] at ha'
      omega
    have hmE : counters m e = ⟨1, 0, 0, 0⟩ :=
      (counters_congr (keepE.mono fun a ha => by rw [Set.mem_Ico] at *; omega)).trans
        (counters_joinLogPage _)
    have hjoin := changesOnly_joinLogPage s₁.mem f.page e
    have hkeep := hall.keeps hf.rep hf.isPage hf.notFree
    refine ⟨[.logEntry e, .logPage e], .newPage hfull hne ?_ ?_ ?_ ?_,
      [.logEntry e, .logPage e, .alloc (e + 4096) 1], ?_, rfl⟩
    · rw [hm', counters_initLogEntry he le_rfl (by omega), hmE,
        show ListNode.pagesCnt.get m (e + 4096) = (counters m e).pagesCnt from rfl, hmE,
        Nat.zero_add]
    · refine (counters_congr (keepT'.mono ?_)).trans ((counters_congr (keepT.mono ?_)).trans
        ((counters_congr fun a ha => hjoin a ?_).trans (counters_congr (hkeep.mono ?_))))
      · exact fun a ha => by rw [Set.mem_Ico] at *; omega
      · exact fun a ha => by rw [Set.mem_Ico] at *; omega
      · simp only [Set.mem_union, mem_linkBytes, Set.mem_Ico] at *
        omega
      · exact fun a ha => by rw [Set.mem_Ico] at ha; rw [mem_pageBytes]; omega
    · have hlink (m₁ m₂ : Memory) (h : Set.EqOn m₂ m₁ (Set.Ico (f.page + 4096) (f.page + 4136))) :
          pageLink m₂ f.page = pageLink m₁ f.page :=
        hf.isPage.pageLink_congr (h.mono fun a ha => by rw [Set.mem_Ico] at *; omega)
      rw [hlink _ _ keepT', hlink _ _ keepT, pageLink_joinLogPage hf.isPage he hf.isPage,
        Function.update_self]
    · refine (Field.get_congr fun a ha => ?_).trans (hall.chain.offset e (by simp))
      simp only [Field.bytes, ListNode.offset_off, ListNode.offset_size, Set.mem_Ico] at ha
      refine (hchange a ?_).trans ((keepE ?_).trans (hjoin a ?_))
      · rw [mem_entryBytes]
        omega
      · rw [Set.mem_Ico]
        omega
      · simp only [Set.mem_union, mem_linkBytes, Set.mem_Ico]
        omega
    · simp only [hall.trace, List.cons_append, List.nil_append, List.length_singleton]

/-- The log has advanced from `f` to `f'` by the entry `E`. -/
structure EntryStep (A : PageAllocator) (f f' : Frontier) (m m' : Memory) (E : LogEntry)
    (evs : List Event) : Prop where
  step : LogStep A ∅ f f' [f.tail] m m'
  slot : nextSlot m' f.tail = E.off
  tail : f'.tail = E.off + 48
  place : f'.page = f.page ∧ E.off = f.tail ∨ f'.page ∈ f.free ∧ E.off = f'.page
  stored : E.Stored m'
  valid : E.invalidPages = 0 ∧ E.bitmap = 0
  inUse : ∀ q ∈ E.pages, q ∉ f'.free ∧ q ≠ f'.page
  grown : Grown f.page f.tail E.off E.pages.length m m' evs

/-- An entry that fits leaves the last page of the log as it is. -/
theorem EntryStep.page_eq {E : LogEntry} {f' : Frontier} {evs : List Event}
    (hE : EntryStep A f f' m m' E evs) (hf : f.Holds A m) (hroom : f.tail ≤ f.page + 4048)
    (hslot : E.off = f.tail) : f'.page = f.page := by
  rcases hE.place with ⟨hp, -⟩ | ⟨hp, hoff⟩
  · exact hp
  · have hne : f'.page ≠ f.page := fun hc => hf.notFree (hc ▸ hp)
    have := hE.step.holds.isPage.apart hf.isPage hne
    have := hf.le_tail
    omega

theorem EntryStep.page_same {E : LogEntry} {f' : Frontier} {evs : List Event}
    (hE : EntryStep A f f' m m' E evs) (hf : f.Holds A m) (hroom : f.tail ≤ f.page + 4048) :
    f'.page = f.page ∧ E.off = f.tail := by
  cases hE.grown with
  | inside room slot => exact ⟨hE.page_eq hf room slot, slot⟩
  | newPage full => omega

/-- An entry that does not fit stands at the start of a page that was free. -/
theorem EntryStep.page_new {E : LogEntry} {f' : Frontier} {evs : List Event}
    (hE : EntryStep A f f' m m' E evs) (hfull : f.page + 4048 < f.tail) :
    f'.page ∈ f.free ∧ E.off = f'.page := by
  rcases hE.place with ⟨hp, hoff⟩ | hp
  · have := hE.step.holds.tail_le
    have := hE.tail
    omega
  · exact hp

/-- An entry for a chain of pages that are in use already. -/
theorem entryStep_of_getLogEntry {p start stop fileSize : Nat} {l : List Nat} (hf : f.Holds A s.mem)
    (h : getLogEntry A s f.tail = .ok (e, tail', s')) (hl : PageChain s.mem p l)
    (hpos : 1 ≤ l.length) (hle : l.length ≤ 64) (huse : ∀ q ∈ l, q ∉ f.free ∧ q ≠ f.page)
    (hsize : fileSize < 2 ^ 64) (hstart : start < 2 ^ 64) (hstop : stop < 2 ^ 64) :
    ∃ f' evs, f'.tail = tail' ∧ Recorded evs s s' ∧ s'.index = s.index ∧
      EntryStep A f f' s.mem (initLogEntry s'.mem e p fileSize l.length start stop)
        ⟨e, l, fileSize, start, stop, 0, 0⟩ evs ∧
      ∀ n, A.Lasts (n + pagesOpened evs) s.mem →
        A.Lasts n (initLogEntry s'.mem e p fileSize l.length start stop) := by
  obtain ⟨f', htail, htail', hplace, -, step, hindex⟩ := getLogEntry_step hf ∅ h
  have huse' : ∀ q ∈ l, q ∉ f'.free ∧ q ≠ f'.page := by
    intro q hq
    obtain ⟨hqF, hqT⟩ := huse q hq
    refine ⟨fun hc => hqF (step.sub hc), ?_⟩
    rintro rfl
    rcases step.moved with ⟨hp, -⟩ | hp
    · exact hqT hp
    · exact hqF hp
  have hl' : PageChain s'.mem p l := hl.congr fun q hq a ha => by
    obtain ⟨hqF, hqT⟩ := huse q hq
    refine step.keeps hf (hl.page q hq) hqF hqT ?_ (Set.notMem_empty a)
    rw [Set.mem_Ico] at ha
    rw [mem_pageBytes]
    omega
  obtain ⟨evs, hgrown, hrec⟩ := grown_of_getLogEntry hf h (ChangesOnly.refl ∅ s'.mem)
    (Set.empty_disjoint _) (fun _ => Set.empty_disjoint _) rfl
  obtain ⟨step', hslot, -, hstored⟩ := step.initEntry hf hplace (htail.trans htail') hl' hpos hle
    (fun hc => (huse' _ hc).2 rfl) hsize hstart hstop rfl
  refine ⟨f', evs, htail, hrec, hindex,
    ⟨step', hslot, htail.trans htail', hplace, hstored, ⟨rfl, rfl⟩, huse', hgrown⟩,
    fun n hlast => ?_⟩
  have hopened := hgrown.pagesOpened
  have hlast' := getLogEntry_lasts hf h (fun hfull => by rw [hopened, if_pos hfull]) hlast
  -- the entry is written to the last page of the log
  have hf' := step.holds
  have hle := hf'.tail_le
  have he : f'.page ≤ e := by
    have := hf.le_tail
    rcases hplace with ⟨hp, he⟩ | ⟨-, he⟩ <;> omega
  refine hlast'.congr hf'.rep (eqOn_of_inUse (A.rep_page hf'.rep)
    (changesOnly_initLogEntry hf'.isPage he (by omega) s'.mem) fun a ha =>
      ⟨f'.page, hf'.isPage, hf'.notFree, ?_⟩)
  rw [mem_entryBytes] at ha
  rw [mem_pageBytes]
  omega

end Grow

/-! ## Several entries -/

/-- The log has advanced from `f` to `f'` by the entries `es`, one after the other. -/
inductive EntrySteps (A : PageAllocator) : Frontier → Frontier → Memory → Memory → List LogEntry →
    List Event → Prop
  | nil {f : Frontier} {m : Memory} (holds : f.Holds A m) : EntrySteps A f f m m [] []
  | cons {f f₁ f' : Frontier} {m m₁ m' : Memory} {E : LogEntry} {es : List LogEntry}
      {evs evs' : List Event} (head : EntryStep A f f₁ m m₁ E evs)
      (rest : EntrySteps A f₁ f' m₁ m' es evs') : EntrySteps A f f' m m' (E :: es) (evs' ++ evs)

theorem EntrySteps.entriesOf {A : PageAllocator} {f f' : Frontier} {m m' : Memory}
    {es : List LogEntry} {evs : List Event} (h : EntrySteps A f f' m m' es evs) :
    entriesOf evs = es.map (·.off) := by
  induction h with
  | nil => rfl
  | cons head rest ih => rw [entriesOf_append, head.grown.entriesOf, ih]; rfl

/-- The newest entry stands in the last page, right in front of the tail. -/
theorem EntrySteps.newest {A : PageAllocator} {f f' : Frontier} {m m' : Memory}
    {es : List LogEntry} {evs : List Event} (h : EntrySteps A f f' m m' es evs) (hf : f.Holds A m)
    (hne : es ≠ []) : ∃ E, es.getLast? = some E ∧ f'.page ≤ E.off ∧ f'.tail = E.off + 48 := by
  induction h with
  | nil => exact absurd rfl hne
  | @cons f f₁ f' m m₁ m' E es evs evs' head rest ih =>
    cases es with
    | nil =>
      cases rest
      have hle := hf.le_tail
      refine ⟨E, rfl, ?_, head.tail⟩
      rcases head.place with ⟨hp, he⟩ | ⟨-, he⟩
      · omega
      · exact he.ge
    | cons E' es =>
      rw [List.getLast?_cons_cons]
      exact ih head.step.holds (List.cons_ne_nil _ _)

end Atfs
