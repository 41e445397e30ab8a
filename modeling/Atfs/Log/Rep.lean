import Atfs.Log.Append
import Mathlib.Algebra.Group.Action.Defs
import Mathlib.Algebra.Order.BigOperators.Group.List
import Mathlib.Data.List.Flatten

/-!
# Logs

A log is a chain of pages with the entries on each of them. `LogRep` says that the memory
holds a given log: the pages are chained, every entry owns its data pages, no page is owned
twice, and the counters of every page agree with its entries.
-/

namespace Atfs

open ByteMemory LinkedChain

/-- A log page and the entries appended to it. -/
structure LogPage where
  page : Nat
  entries : List LogEntry

/-- The pages a log page accounts for: itself and the data pages of its entries. -/
def LogPage.own (P : LogPage) : List Nat := P.page :: pagesOf P.entries

/-- How many bits of the bitmap are set below the number of pages. -/
def LogEntry.setBits (E : LogEntry) : Nat := (List.range E.pages.length).countP (E.bitmap.testBit ·)

/-- What the counters of a page should be. -/
def tally (es : List LogEntry) : Counters where
  objCnt := es.length
  invalidCnt := es.countP fun E => E.invalidPages = E.pages.length
  pagesCnt := (es.map (·.pages.length)).sum
  invalidPages := (es.map (·.invalidPages)).sum

structure LogPage.Rep (P : LogPage) (m : Memory) : Prop where
  isPage : IsPage P.page
  offset : ListNode.offset.get m (P.page + 4096) = P.page
  place : ∀ i E, P.entries[i]? = some E → E.off = P.page + 48 * i
  stored : ∀ E ∈ P.entries, E.Stored m
  bits : ∀ E ∈ P.entries, E.invalidPages = E.setBits
  length_le : P.entries.length ≤ 85
  counters : counters m P.page = tally P.entries

/-- The pages of a log with all that they account for. -/
def owned (L : List LogPage) : List Nat := L.flatMap LogPage.own

/-- In memory `m` the log with the pages `L` and then `last` starts at `head` and ends at `f`. -/
structure LogRep (m : Memory) (head : Nat) (f : Frontier) (L : List LogPage) (last : LogPage) :
    Prop where
  chain : Segment (pageLink m) head (L.map (·.page)) last.page
  rep : ∀ P ∈ L ++ [last], P.Rep m
  page : f.page = last.page
  tail : f.tail = last.page + 48 * last.entries.length
  nodup : (owned (L ++ [last])).Nodup
  inUse : ∀ q ∈ owned (L ++ [last]), q ∉ f.free

theorem mem_owned {L : List LogPage} {q : Nat} : q ∈ owned L ↔ ∃ P ∈ L, q ∈ P.own :=
    List.mem_flatMap

@[simp] theorem owned_nil : owned [] = [] := rfl

@[simp] theorem owned_cons (P : LogPage) (L : List LogPage) : owned (P :: L) = P.own ++ owned L :=
  List.flatMap_cons

@[simp] theorem owned_append (L L' : List LogPage) : owned (L ++ L') = owned L ++ owned L' :=
  List.flatMap_append

theorem tally_append (es : List LogEntry) (E : LogEntry) (hE : E.invalidPages = 0)
    (hpos : 1 ≤ E.pages.length) :
    tally (es ++ [E]) = { tally es with
      objCnt := (tally es).objCnt + 1, pagesCnt := (tally es).pagesCnt + E.pages.length } := by
  rw [tally, tally]
  simp [hE, List.countP_cons]
  omega

section Owned

variable {L L' : List LogPage} {P Q : LogPage}

theorem owned_sublist (h : L.Sublist L') : (owned L).Sublist (owned L') := h.flatMap _

theorem pages_sublist_owned (L : List LogPage) : (L.map (·.page)).Sublist (owned L) := by
  induction L with
  | nil => exact List.Sublist.slnil
  | cons P L ih =>
    rw [List.map_cons, owned_cons, LogPage.own, List.cons_append]
    exact (ih.trans (List.sublist_append_right _ _)).cons_cons _

/-- No log page is a data page. -/
theorem page_notMem_pagesOf (h : (owned L).Nodup) (hQ : Q ∈ L) (hP : P ∈ L) :
    Q.page ∉ pagesOf P.entries := by
  intro hc
  obtain ⟨hown, hdisj⟩ := List.nodup_flatMap.1 h
  by_cases hQP : Q = P
  · subst hQP
    exact (List.nodup_cons.1 (hown Q hQ)).1 hc
  · have : Std.Symm (Function.onFun List.Disjoint LogPage.own) := ⟨fun _ _ h _ ha hb => h hb ha⟩
    exact hdisj.forall hQ hP hQP List.mem_cons_self (List.mem_cons_of_mem _ hc)

end Owned

section Rep

variable {P : LogPage} {m m' : Memory}

/-- A log page is decided by the bytes of its page, its own link apart, and the first words of the
nodes of its data pages. -/
theorem LogPage.Rep.congr_nodes (h : P.Rep m)
    (hT : Set.EqOn m' m (pageBytes P.page \ linkBytes P.page))
    (hnodes : ∀ q ∈ pagesOf P.entries, Set.EqOn m' m (Set.Ico (q + 4096) (q + 4112))) :
    P.Rep m' := by
  refine ⟨h.isPage, ?_, h.place, ?_, h.bits, h.length_le, ?_⟩
  · refine (Field.get_congr fun a ha => hT ?_).trans h.offset
    simp only [Field.bytes, ListNode.offset_off, ListNode.offset_size, Set.mem_Ico] at ha
    rw [Set.mem_sdiff, mem_pageBytes, mem_linkBytes]
    omega
  · intro E hE
    obtain ⟨i, hi, hEi⟩ := List.getElem_of_mem hE
    have hoff := h.place i E (by rw [List.getElem?_eq_getElem hi, hEi])
    have hle := h.length_le
    refine (h.stored E hE).congr (hT.mono ?_) fun q hq => hnodes q (mem_pagesOf.2 ⟨E, hE, hq⟩)
    intro a ha
    rw [Set.mem_Ico] at ha
    rw [Set.mem_sdiff, mem_pageBytes, mem_linkBytes]
    omega
  · refine (counters_congr (hT.mono ?_)).trans h.counters
    intro a ha
    rw [Set.mem_Ico] at ha
    rw [Set.mem_sdiff, mem_pageBytes, mem_linkBytes]
    omega

/-- A log page is decided by the bytes of the pages it accounts for, its own link apart. -/
theorem LogPage.Rep.congr_link (h : P.Rep m)
    (hT : Set.EqOn m' m (pageBytes P.page \ linkBytes P.page))
    (hdata : ∀ q ∈ pagesOf P.entries, Set.EqOn m' m (pageBytes q)) : P.Rep m' := by
  refine h.congr_nodes hT fun q hq => (hdata q hq).mono fun a ha => ?_
  rw [Set.mem_Ico] at ha
  rw [mem_pageBytes]
  omega

theorem LogPage.Rep.congr (h : P.Rep m) (heq : ∀ q ∈ P.own, Set.EqOn m' m (pageBytes q)) :
    P.Rep m' :=
  h.congr_link ((heq P.page List.mem_cons_self).mono Set.sdiff_subset)
    fun q hq => heq q (List.mem_cons_of_mem _ hq)

theorem LogPage.Rep.isPage_own (h : P.Rep m) : ∀ q ∈ P.own, IsPage q := by
  intro q hq
  rcases List.mem_cons.1 hq with rfl | hq
  · exact h.isPage
  · obtain ⟨E, hE, hqE⟩ := mem_pagesOf.1 hq
    exact (h.stored E hE).chain.page q hqE

/-- The entries of a log page stand in it. -/
theorem LogPage.Rep.logPageOff_eq (h : P.Rep m) {E : LogEntry} (hE : E ∈ P.entries) :
    logPageOff E.off = P.page := by
  obtain ⟨i, hi, rfl⟩ := List.getElem_of_mem hE
  have hoff := h.place i _ (List.getElem?_eq_getElem hi)
  have hle := h.length_le
  exact h.isPage.logPageOff_eq (by rw [mem_pageBytes]; omega)

/-- The number of pages on a log page fits its counter. -/
theorem LogPage.Rep.pages_le (h : P.Rep m) : (tally P.entries).pagesCnt ≤ 64 * 85 := by
  have hsum := List.sum_le_card_nsmul (P.entries.map (·.pages.length)) 64 (by
    intro n hn
    obtain ⟨E, hE, rfl⟩ := List.mem_map.1 hn
    exact (h.stored E hE).le)
  have hle := h.length_le
  rw [List.length_map, smul_eq_mul] at hsum
  have : (tally P.entries).pagesCnt = (P.entries.map (·.pages.length)).sum := rfl
  omega

end Rep

section Step

variable {A : PageAllocator} {f f' : Frontier} {head : Nat} {L : List LogPage} {last : LogPage}
  {m m' : Memory} {E : LogEntry} {evs : List Event}

/-- A log that is not written to. -/
theorem LogRep.congr (h : LogRep m head f L last)
    (heq : ∀ q ∈ owned (L ++ [last]), Set.EqOn m' m (pageBytes q))
    (hfree : ∀ q ∈ owned (L ++ [last]), q ∉ f'.free) (hpage : f'.page = f.page)
    (htail : f'.tail = f.tail) : LogRep m' head f' L last where
  chain := by
    refine h.chain.congr fun p hp => ?_
    obtain ⟨P, hP, rfl⟩ := List.mem_map.1 hp
    have hP' : P ∈ L ++ [last] := List.mem_append_left _ hP
    refine (h.rep P hP').isPage.pageLink_congr fun a ha => (heq P.page ?_ ?_).symm
    · exact mem_owned.2 ⟨P, hP', List.mem_cons_self⟩
    · rw [Set.mem_Ico] at ha
      rw [mem_pageBytes]
      omega
  rep := fun P hP => (h.rep P hP).congr fun q hq => heq q (mem_owned.2 ⟨P, hP, hq⟩)
  page := hpage.trans h.page
  tail := htail.trans h.tail
  nodup := h.nodup
  inUse := hfree

/-- A page of the log before the last is out of reach of a step. -/
theorem LogRep.keeps {D : Set Nat} {ts : List Nat} (h : LogRep m head f L last)
    (hf : f.Holds A m) (hs : LogStep A D f f' ts m m')
    (hD : ∀ q ∈ owned L, Disjoint D (pageBytes q)) :
    ∀ q ∈ owned L, Set.EqOn m' m (pageBytes q) := by
  intro q hq a ha
  obtain ⟨P, hP, hqP⟩ := mem_owned.1 hq
  have hqP' : q ∈ owned (L ++ [last]) := by
    rw [owned_append]
    exact List.mem_append_left _ hq
  have hne : q ≠ f.page := by
    rintro rfl
    have hnodup := h.nodup
    rw [owned_append, List.nodup_append] at hnodup
    refine hnodup.2.2 _ hq _ ?_ rfl
    rw [h.page, owned_cons, LogPage.own]
    simp
  exact hs.keeps hf ((h.rep P (List.mem_append_left _ hP)).isPage_own q hqP) (h.inUse q hqP') hne ha
    fun hc => Set.disjoint_left.1 (hD q hq) hc ha

/-- What a step leaves of the last page of the log, apart from its counters. -/
theorem LogPage.Rep.advance {P : LogPage} {ts : List Nat} (h : P.Rep m) (hf : f.Holds A m)
    (hs : LogStep A ∅ f f' ts m m') (hpage : f.page = P.page)
    (htail : f.tail = P.page + 48 * P.entries.length)
    (hdata : ∀ q ∈ pagesOf P.entries, q ∉ f.free ∧ q ≠ f.page) :
    ListNode.offset.get m' (P.page + 4096) = P.page ∧ ∀ E ∈ P.entries, E.Stored m' := by
  have hle := h.length_le
  constructor
  · refine (Field.get_congr fun a ha => ?_).trans h.offset
    simp only [Field.bytes, ListNode.offset_off, ListNode.offset_size, Set.mem_Ico] at ha
    exact hs.keeps_tail hf (by omega) (Set.notMem_empty a)
  · intro E hE
    obtain ⟨i, hi, hEi⟩ := List.getElem_of_mem hE
    have hoff := h.place i E (by rw [List.getElem?_eq_getElem hi, hEi])
    refine (h.stored E hE).step hs hf (by omega) (fun q hq => ?_) (by simp)
    exact hdata q (mem_pagesOf.2 ⟨E, hE, hq⟩)

theorem LogEntry.setBits_eq_zero {E : LogEntry} (h : E.bitmap = 0) : E.setBits = 0 := by
  simp [LogEntry.setBits, h]

/-- How a log changes when an entry is appended to it. -/
def Extends (L : List LogPage) (last : LogPage) (E : LogEntry) (L' : List LogPage)
    (last' : LogPage) :
    List Event → Prop := fun evs =>
  (L' = L ∧ last' = ⟨last.page, last.entries ++ [E]⟩ ∧ evs = [.logEntry E.off]) ∨
    (L' = L ++ [last] ∧ last' = ⟨E.off, [E]⟩ ∧ evs = [.logEntry E.off, .logPage E.off])

/-- The last page of a log with one more entry. -/
theorem LogPage.Rep.append (h : last.Rep m) (hf : f.Holds A m) (hE : EntryStep A f f' m m' E evs)
    (hpage : f.page = last.page) (htail : f.tail = last.page + 48 * last.entries.length)
    (hdata : ∀ q ∈ pagesOf last.entries, q ∉ f.free ∧ q ≠ f.page)
    (hroom : f.tail ≤ f.page + 4048) (hslot : E.off = f.tail)
    (hcount : Atfs.counters m' f.page = (Atfs.counters m f.page).append E.pages.length) :
    LogPage.Rep ⟨last.page, last.entries ++ [E]⟩ m' := by
  have hpages := h.pages_le
  have hle := h.length_le
  have hpos := hE.stored.pos
  have hlen := hE.stored.le
  obtain ⟨hoff, hstored⟩ := h.advance hf hE.step hpage htail hdata
  refine ⟨h.isPage, hoff, ?_, ?_, ?_, ?_, ?_⟩
  · intro i E' hE'
    rw [List.getElem?_append] at hE'
    split_ifs at hE' with hi
    · exact h.place i E' hE'
    · obtain ⟨hi', rfl⟩ : i - last.entries.length = 0 ∧ E = E' := by
        rcases Nat.eq_zero_or_pos (i - last.entries.length) with h0 | h0
        · simpa [h0] using hE'
        · rw [List.getElem?_eq_none (by simp only [List.length_singleton]; omega)] at hE'
          cases hE'
      simp only
      omega
  · intro E' hE'
    rcases List.mem_append.1 hE' with hE' | hE'
    · exact hstored E' hE'
    · obtain rfl := List.mem_singleton.1 hE'
      exact hE.stored
  · intro E' hE'
    rcases List.mem_append.1 hE' with hE' | hE'
    · exact h.bits E' hE'
    · obtain rfl := List.mem_singleton.1 hE'
      rw [LogEntry.setBits_eq_zero hE.valid.2, hE.valid.1]
  · rw [List.length_append, List.length_singleton]
    omega
  · rw [hpage, h.counters, Counters.append] at hcount
    have hobj : (tally last.entries).objCnt = last.entries.length := rfl
    rw [hcount, tally_append _ _ hE.valid.1 hpos, Nat.mod_eq_of_lt (by omega),
      Nat.mod_eq_of_lt (by omega)]

/-- A new page of a log with its first entry. -/
theorem EntryStep.newPage_rep (hE : EntryStep A f f' m m' E evs) (hpage : f'.page = E.off)
    (hcount : counters m' E.off = ⟨1, 0, E.pages.length % 2 ^ 32, 0⟩)
    (hoff : ListNode.offset.get m' (E.off + 4096) = E.off) : LogPage.Rep ⟨E.off, [E]⟩ m' := by
  have hpos := hE.stored.pos
  have hlen := hE.stored.le
  refine ⟨hpage ▸ hE.step.holds.isPage, hoff, ?_, ?_, ?_, by simp, ?_⟩
  · intro i E' hE'
    cases i with
    | zero =>
      obtain rfl : E = E' := by simpa using hE'
      rfl
    | succ i => simp at hE'
  · intro E' hE'
    obtain rfl := List.mem_singleton.1 hE'
    exact hE.stored
  · intro E' hE'
    obtain rfl := List.mem_singleton.1 hE'
    rw [LogEntry.setBits_eq_zero hE.valid.2, hE.valid.1]
  · have htally := tally_append [] E hE.valid.1 hpos
    rw [List.nil_append] at htally
    rw [hcount, htally, Nat.mod_eq_of_lt (by omega)]
    simp [tally]

/-- Appending an entry for pages the log does not own yet. -/
theorem LogRep.append (h : LogRep m head f L last) (hf : f.Holds A m)
    (hE : EntryStep A f f' m m' E evs) (hnew : ∀ q ∈ E.pages, q ∉ owned (L ++ [last])) :
    ∃ L' last', LogRep m' head f' L' last' ∧ Extends L last E L' last' evs := by
  have hlastmem : last ∈ L ++ [last] := by simp
  have hlast := h.rep last hlastmem
  have hown : ∀ q ∈ last.own, q ∉ f.free := fun q hq => h.inUse q (mem_owned.2 ⟨last, hlastmem, hq⟩)
  have hdata : ∀ q ∈ pagesOf last.entries, q ∉ f.free ∧ q ≠ f.page := by
    intro q hq
    refine ⟨hown q (List.mem_cons_of_mem _ hq), ?_⟩
    rintro rfl
    have hnodup := h.nodup
    rw [owned_append, List.nodup_append] at hnodup
    have hnodup' := hnodup.2.1
    rw [owned_cons, LogPage.own, owned_nil, List.append_nil, ← h.page] at hnodup'
    exact (List.nodup_cons.1 hnodup').1 hq
  have hkeep := h.keeps hf hE.step (by simp)
  have hold : ∀ P ∈ L, P.Rep m' := fun P hP =>
    (h.rep P (List.mem_append_left _ hP)).congr fun q hq => hkeep q (mem_owned.2 ⟨P, hP, hq⟩)
  have hchain : Segment (pageLink m') head (L.map (·.page)) last.page := by
    refine h.chain.congr fun p hp => ?_
    obtain ⟨P, hP, rfl⟩ := List.mem_map.1 hp
    refine ((h.rep P (List.mem_append_left _ hP)).isPage.pageLink_congr fun a ha => ?_).symm
    refine hkeep P.page (mem_owned.2 ⟨P, hP, List.mem_cons_self⟩) ?_
    rw [Set.mem_Ico] at ha
    rw [mem_pageBytes]
    omega
  have hsub := hE.step.sub
  have huse : ∀ q ∈ owned (L ++ [last]) ++ E.pages, q ∉ f'.free := by
    intro q hq hc
    rcases List.mem_append.1 hq with hq | hq
    · exact h.inUse q hq (hsub hc)
    · exact (hE.inUse q hq).1 hc
  have hnodup : (owned (L ++ [last]) ++ E.pages).Nodup :=
    h.nodup.append hE.stored.chain.nodup fun q hq hq' => hnew q hq' hq
  cases hE.grown with
  | inside room slot hcount =>
    -- the slot lies in the last page, so the log still ends there
    have hplace : f'.page = f.page := hE.page_eq hf room slot
    have howned : owned (L ++ [⟨last.page, last.entries ++ [E]⟩]) =
        owned (L ++ [last]) ++ E.pages := by
      simp [LogPage.own, pagesOf]
    refine ⟨L, ⟨last.page, last.entries ++ [E]⟩, ⟨hchain, ?_, hplace.trans h.page, ?_, ?_, ?_⟩,
      .inl ⟨rfl, rfl, rfl⟩⟩
    · intro P hP
      rcases List.mem_append.1 hP with hP | hP
      · exact hold P hP
      · obtain rfl := List.mem_singleton.1 hP
        exact hlast.append hf hE h.page h.tail hdata room slot hcount
    · rw [hE.tail, slot, h.tail]
      simp only [List.length_append, List.length_singleton]
      omega
    · rw [howned]
      exact hnodup
    · rw [howned]
      exact huse
  | newPage full ne hcount old link offset =>
    have hplace : f'.page ∈ f.free ∧ E.off = f'.page := hE.page_new full
    have howned : owned (L ++ [last] ++ [⟨E.off, [E]⟩]) = owned (L ++ [last]) ++
        E.off :: E.pages := by
      simp [LogPage.own, pagesOf]
    refine ⟨L ++ [last], ⟨E.off, [E]⟩, ⟨?_, ?_, hplace.2.symm, ?_, ?_, ?_⟩, .inr ⟨rfl, rfl, rfl⟩⟩
    · rw [List.map_append, List.map_singleton, segment_snoc]
      exact ⟨hchain, h.page ▸ link⟩
    · intro P hP
      rcases List.mem_append.1 hP with hP | hP
      · rcases List.mem_append.1 hP with hP | hP
        · exact hold P hP
        · obtain rfl := List.mem_singleton.1 hP
          obtain ⟨hoff, hstored⟩ := hlast.advance hf hE.step h.page h.tail hdata
          exact { hlast with
            offset := hoff
            stored := hstored
            counters := by rw [← h.page, old, h.page, hlast.counters] }
      · obtain rfl := List.mem_singleton.1 hP
        exact hE.newPage_rep hplace.2.symm hcount offset
    · rw [hE.tail]
      rfl
    · rw [howned]
      refine (List.perm_middle.nodup_iff).2 (List.nodup_cons.2 ⟨?_, hnodup⟩)
      intro hc
      rcases List.mem_append.1 hc with hc | hc
      · exact h.inUse _ hc (hplace.2 ▸ hplace.1)
      · exact (hE.inUse _ hc).2 hplace.2
    · rw [howned]
      intro q hq
      rcases List.mem_append.1 hq with hq | hq
      · exact huse q (List.mem_append_left _ hq)
      · rcases List.mem_cons.1 hq with rfl | hq
        · exact hplace.2 ▸ hE.step.holds.notFree
        · exact huse q (List.mem_append_right _ hq)

end Step

end Atfs
