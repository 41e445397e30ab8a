import Atfs.Log.Invalidate
import Atfs.Log.Rep

/-!
# Invalidation and the log

`invalidate_old_log_entry` for a page of the log that is valid leaves a log with the same pages and
the same entries, in one of which one more page is marked.
-/

namespace Atfs

open ByteMemory LinkedChain

/-- The entry with its page `pos` marked. -/
def LogEntry.mark (pos : Nat) (E : LogEntry) : LogEntry :=
  { E with invalidPages := E.invalidPages + 1, bitmap := E.bitmap ||| 1 <<< pos }

/-- The log page with page `pos` of the entry at `e` marked. -/
def LogPage.mark (e pos : Nat) (P : LogPage) : LogPage :=
  ⟨P.page, P.entries.map fun E => if E.off = e then E.mark pos else E⟩

section Mark

variable {e pos : Nat} {E : LogEntry} {P last : LogPage} {L : List LogPage} {m m' : Memory}

@[simp] theorem LogPage.mark_page : (P.mark e pos).page = P.page := rfl

@[simp] theorem LogPage.length_mark : (P.mark e pos).entries.length = P.entries.length :=
  List.length_map _

theorem LogEntry.mark_off (E : LogEntry) : (if E.off = e then E.mark pos else E).off = E.off := by
  split_ifs <;> rfl

theorem LogEntry.mark_pages (E : LogEntry) :
    (if E.off = e then E.mark pos else E).pages = E.pages := by
  split_ifs <;> rfl

/-- The entries stand where they stood. -/
theorem LogPage.map_off_mark : (P.mark e pos).entries.map (·.off) = P.entries.map (·.off) := by
  rw [LogPage.mark, List.map_map]
  exact List.map_congr_left fun E _ => E.mark_off

theorem LogPage.pagesOf_mark : pagesOf (P.mark e pos).entries = pagesOf P.entries := by
  rw [LogPage.mark, pagesOf, pagesOf, List.flatMap_map]
  exact List.flatMap_congr fun E _ => E.mark_pages

@[simp] theorem LogPage.own_mark : (P.mark e pos).own = P.own := by
  rw [LogPage.own, LogPage.own, LogPage.pagesOf_mark, LogPage.mark_page]

@[simp] theorem owned_mark : owned (L.map (·.mark e pos)) = owned L := by
  rw [owned, owned, List.flatMap_map]
  exact List.flatMap_congr fun P _ => P.own_mark

@[simp] theorem map_page_mark : (L.map (·.mark e pos)).map (·.page) = L.map (·.page) := by
  rw [List.map_map]
  rfl

/-- A page without the entry is as it was. -/
theorem LogPage.mark_of_notMem (h : ∀ E ∈ P.entries, E.off ≠ e) : P.mark e pos = P := by
  rw [LogPage.mark, List.map_congr_left fun E hE => if_neg (h E hE), List.map_id']

/-- One more bit is set. -/
theorem LogEntry.setBits_mark (hlt : pos < E.pages.length) (hclear : E.bitmap.testBit pos = false) :
    (E.mark pos).setBits = E.setBits + 1 := by
  have hbit (k : Nat) : (E.bitmap ||| 1 <<< pos).testBit k =
      (decide (pos = k) || E.bitmap.testBit k) := by
    rw [Nat.testBit_or, Nat.shiftLeft_eq, one_mul, Nat.testBit_two_pow, Bool.or_comm]
  obtain ⟨s, t, hrange⟩ := List.append_of_mem (List.mem_range.2 hlt)
  have hnodup : (s ++ pos :: t).Nodup := hrange ▸ List.nodup_range
  obtain ⟨-, ht, hst⟩ := List.nodup_append'.1 hnodup
  have hother {l : List Nat} (hl : pos ∉ l) :
      l.countP ((E.mark pos).bitmap.testBit ·) = l.countP (E.bitmap.testBit ·) := by
    refine List.countP_congr fun k hk => ?_
    have hne : pos ≠ k := by
      rintro rfl
      exact hl hk
    rw [LogEntry.mark, hbit, decide_eq_false hne, Bool.false_or]
  have hpos : (E.mark pos).bitmap.testBit pos = true := by
    rw [LogEntry.mark, hbit, decide_eq_true rfl, Bool.true_or]
  rw [LogEntry.setBits, LogEntry.setBits, show (E.mark pos).pages = E.pages from rfl, hrange,
    List.countP_append, List.countP_append, List.countP_cons_of_pos hpos,
    List.countP_cons_of_neg (by rw [hclear]; simp), hother fun hc => hst hc List.mem_cons_self,
    hother (List.nodup_cons.1 ht).1, Nat.add_assoc]

/-- The words of the entry after a call for its page `pos`. -/
theorem LogEntry.Stored.mark {T : Nat} (h : E.Stored m) (hinv : Invalidated T E.off pos m m')
    (hT : IsPage T) (hapart : ∀ q ∈ E.pages, q ≠ T) (hle : T ≤ E.off) (hle' : E.off + 48 ≤ T + 4096)
    (hfit : E.invalidPages < E.pages.length) : (E.mark pos).Stored m' := by
  have hlen := h.le
  have word (g : Field 48) (hg : g.off + g.size ≤ 36) : g.get m' E.off = g.get m E.off := by
    refine Field.get_congr fun a ha => hinv.frame a ?_
    rw [Field.bytes, Set.mem_Ico] at ha
    rw [mem_markBytes]
    omega
  refine ⟨⟨?_, ?_, ?_, ?_, ?_, ?_, ?_⟩, h.chain.congr fun q hq a ha => hinv.frame a ?_, h.pos, h.le⟩
  · exact (word _ (by decide)).trans h.words.data
  · exact (word _ (by decide)).trans h.words.fileSize
  · exact (word _ (by decide)).trans h.words.startWriteOff
  · exact (word _ (by decide)).trans h.words.endWriteOff
  · exact (word _ (by decide)).trans h.words.numPages
  · rw [LogEntry.mark, hinv.invalidPages, h.words.invalidPages, Nat.mod_eq_of_lt (by omega)]
  · rw [LogEntry.mark, hinv.bitmap, h.words.bitmap]
  · have := (h.chain.page q hq).apart hT (hapart q hq)
    rw [Set.mem_Ico] at ha
    rw [mem_markBytes]
    omega

/-- The slots of the entries, in order. -/
theorem LogPage.Rep.map_off (h : P.Rep m) :
    P.entries.map (·.off) = (List.range P.entries.length).map (P.page + 48 * ·) := by
  refine List.ext_getElem (by simp) fun i hi hi' => ?_
  rw [List.length_map] at hi
  rw [List.getElem_map, List.getElem_map, List.getElem_range]
  exact h.place i _ (List.getElem?_eq_getElem hi)

theorem LogPage.Rep.nodup_off (h : P.Rep m) : (P.entries.map (·.off)).Nodup := by
  rw [h.map_off]
  refine List.nodup_range.map fun i j hij => ?_
  have hij : P.page + 48 * i = P.page + 48 * j := hij
  omega

theorem LogPage.Rep.slot_bounds (h : P.Rep m) (hE : E ∈ P.entries) :
    ∃ i < 85, E.off = P.page + 48 * i := by
  obtain ⟨i, hi, rfl⟩ := List.getElem_of_mem hE
  have hle := h.length_le
  exact ⟨i, by omega, h.place i _ (List.getElem?_eq_getElem hi)⟩

theorem LogEntry.setBits_le (E : LogEntry) : E.setBits ≤ E.pages.length := by
  rw [LogEntry.setBits]
  exact List.countP_le_length.trans List.length_range.le

/-- No more pages are invalid than there are. -/
theorem LogPage.Rep.invalidPages_le (h : P.Rep m) :
    (tally P.entries).invalidPages ≤ (tally P.entries).pagesCnt := by
  refine List.sum_le_sum fun E hE => ?_
  rw [h.bits E hE]
  exact E.setBits_le

variable (pos) in
/-- The page around the entry with a bit to set. -/
theorem LogPage.Rep.split_mark (h : P.Rep m) (hE : E ∈ P.entries) :
    ∃ es es', P.entries = es ++ E :: es' ∧ (P.mark E.off pos).entries = es ++
      E.mark pos :: es' := by
  obtain ⟨es, es', hes⟩ := List.append_of_mem hE
  have hnodup := h.nodup_off
  rw [hes, List.map_append, List.map_cons] at hnodup
  obtain ⟨-, hes', hdisj⟩ := List.nodup_append'.1 hnodup
  have hsame {l : List LogEntry} (hl : ∀ E' ∈ l, E'.off ≠ E.off) :
      l.map (fun E' => if E'.off = E.off then E'.mark pos else E') = l := by
    rw [List.map_congr_left fun E' hE' => if_neg (hl E' hE'), List.map_id']
  refine ⟨es, es', hes, ?_⟩
  rw [LogPage.mark, hes, List.map_append, List.map_cons, if_pos rfl, hsame, hsame]
  · intro E' hE' hc
    exact (List.nodup_cons.1 hes').1 (List.mem_map.2 ⟨E', hE', hc⟩)
  · intro E' hE' hc
    exact hdisj (List.mem_map_of_mem hE') (hc ▸ List.mem_cons_self)

/-- The counters that a page with one more page marked should have. -/
theorem tally_mark {es es' : List LogEntry} (hfit : E.invalidPages < E.pages.length) :
    tally (es ++ E.mark pos :: es') = { tally (es ++ E :: es') with
      invalidPages := (tally (es ++ E :: es')).invalidPages + 1
      invalidCnt :=
        if E.pages.length = E.invalidPages + 1 then (tally (es ++ E :: es')).invalidCnt + 1
        else (tally (es ++ E :: es')).invalidCnt } := by
  have hne : ¬ E.invalidPages = E.pages.length := by omega
  simp only [tally, LogEntry.mark, List.countP_append, List.countP_cons, List.map_append,
    List.map_cons, List.sum_append, List.sum_cons, List.length_append, List.length_cons,
    decide_eq_true_eq, if_neg hne, Counters.mk.injEq, true_and]
  split_ifs <;> omega

/-- A log page after a call for a valid page of one of its entries. -/
theorem LogPage.Rep.mark (h : P.Rep m) (hE : E ∈ P.entries) (hdata : P.page ∉ pagesOf P.entries)
    (hlt : pos < E.pages.length) (hclear : E.bitmap.testBit pos = false)
    (hinv : Invalidated P.page E.off pos m m') : (P.mark E.off pos).Rep m' := by
  have hfit : E.invalidPages < E.pages.length := by
    have hbits := LogEntry.setBits_mark hlt hclear
    have hle : (E.mark pos).setBits ≤ E.pages.length := (E.mark pos).setBits_le
    rw [h.bits E hE]
    omega
  obtain ⟨es, es', hes, hmark⟩ := h.split_mark pos hE
  obtain ⟨i, hi, hoff⟩ := h.slot_bounds hE
  have hne {q : Nat} {E' : LogEntry} (hE' : E' ∈ P.entries) (hq : q ∈ E'.pages) : q ≠ P.page :=
    fun hc => hdata (hc ▸ mem_pagesOf.2 ⟨E', hE', hq⟩)
  have hpages := h.pages_le
  have hlen := h.length_le
  have hmem {E' : LogEntry} (hE' : E' ∈ (P.mark E.off pos).entries) :
      E' = E.mark pos ∨ E' ∈ P.entries ∧ E'.off ≠ E.off := by
    rw [LogPage.mark] at hE'
    obtain ⟨E₀, hE₀, rfl⟩ := List.mem_map.1 hE'
    split_ifs with heq
    · exact .inl (by rw [List.inj_on_of_nodup_map h.nodup_off hE₀ hE heq])
    · exact .inr ⟨hE₀, heq⟩
  refine ⟨h.isPage, ?_, fun k E' hE' => ?_, fun E' hE' => ?_, fun E' hE' => ?_, ?_, ?_⟩
  · refine (Field.get_congr fun a ha => hinv.frame a ?_).trans h.offset
    simp only [Field.bytes, ListNode.offset_off, ListNode.offset_size, Set.mem_Ico,
      LogPage.mark_page] at ha
    rw [mem_markBytes]
    omega
  · rw [LogPage.mark, List.getElem?_map, Option.map_eq_some_iff] at hE'
    obtain ⟨E₀, hE₀, rfl⟩ := hE'
    rw [E₀.mark_off]
    exact h.place k E₀ hE₀
  · rcases hmem hE' with rfl | ⟨hE', hne'⟩
    · exact (h.stored E hE).mark hinv h.isPage (fun q hq => hne hE hq) (by omega) (by omega) hfit
    · obtain ⟨k, hk, hoff'⟩ := h.slot_bounds hE'
      refine (h.stored E' hE').congr (fun a ha => hinv.frame a ?_) fun q hq a ha => hinv.frame a ?_
      · rw [Set.mem_Ico] at ha
        rw [mem_markBytes]
        omega
      · have := ((h.stored E' hE').chain.page q hq).apart h.isPage (hne hE' hq)
        rw [Set.mem_Ico] at ha
        rw [mem_markBytes]
        omega
  · rcases hmem hE' with rfl | ⟨hE', -⟩
    · rw [LogEntry.setBits_mark hlt hclear, ← h.bits E hE, LogEntry.mark]
    · exact h.bits E' hE'
  · rw [LogPage.length_mark]
    exact hlen
  · have hwords := (h.stored E hE).words
    have hcnt : (tally P.entries).invalidCnt ≤ P.entries.length := List.countP_le_length
    have hinvalid := h.invalidPages_le
    have hle := (h.stored E hE).le
    have node (g : Field 40) (hg : g.off + g.size ≤ 20 ∨ 24 ≤ g.off ∧ g.off + g.size ≤ 28) :
        g.get m' (P.page + 4096) = g.get m (P.page + 4096) := by
      refine Field.get_congr fun a ha => hinv.frame a ?_
      rw [Field.bytes, Set.mem_Ico] at ha
      rw [mem_markBytes]
      omega
    obtain ⟨hobj, hinvCnt, hpagesCnt, hinvPages⟩ := Counters.ext_iff.1 h.counters
    simp only [Atfs.counters] at hobj hinvCnt hpagesCnt hinvPages
    rw [hmark, tally_mark hfit, ← hes]
    ext
    · exact (node _ (by decide)).trans hobj
    · refine hinv.entryCount.trans ?_
      rw [hwords.numPages, hwords.invalidPages, hinvCnt, Nat.mod_eq_of_lt (by omega),
        Nat.mod_eq_of_lt (by omega)]
    · exact (node _ (by decide)).trans hpagesCnt
    · refine hinv.pageCount.trans ?_
      rw [hinvPages, Nat.mod_eq_of_lt (by omega)]

/-- A log after a call for a valid page of one of its entries. -/
theorem LogRep.mark {f : Frontier} {head : Nat} (h : LogRep m head f L last) (hP : P ∈ L ++ [last])
    (hE : E ∈ P.entries) (hlt : pos < E.pages.length) (hclear : E.bitmap.testBit pos = false)
    (hinv : Invalidated P.page E.off pos m m') :
    LogRep m' head f (L.map (·.mark E.off pos)) (last.mark E.off pos) := by
  have hall : L.map (·.mark E.off pos) ++ [last.mark E.off pos] =
      (L ++ [last]).map (·.mark E.off pos) := by
    rw [List.map_append, List.map_singleton]
  have hPrep := h.rep P hP
  obtain ⟨i, hi, hoff⟩ := hPrep.slot_bounds hE
  -- the words that change lie in the page of the entry, behind its link
  have hlink {Q : LogPage} (hQ : Q ∈ L ++ [last]) : Set.EqOn m' m (linkBytes Q.page) := by
    intro a ha
    refine hinv.frame a ?_
    rw [mem_linkBytes] at ha
    rw [mem_markBytes]
    by_cases hQP : Q.page = P.page
    · omega
    · have := (h.rep Q hQ).isPage.apart hPrep.isPage hQP
      omega
  have hother {q : Nat} (hq : IsPage q) (hne : q ≠ P.page) : Set.EqOn m' m (pageBytes q) := by
    intro a ha
    have := hq.apart hPrep.isPage hne
    refine hinv.frame a ?_
    rw [mem_pageBytes] at ha
    rw [mem_markBytes]
    omega
  have hdata {Q : LogPage} (hQ : Q ∈ L ++ [last]) : P.page ∉ pagesOf Q.entries :=
    page_notMem_pagesOf h.nodup hP hQ
  refine ⟨?_, ?_, h.page, ?_, ?_, ?_⟩
  · rw [map_page_mark]
    refine h.chain.congr fun p hp => ?_
    obtain ⟨Q, hQ, rfl⟩ := List.mem_map.1 hp
    have hQ := List.mem_append_left [last] hQ
    exact ((h.rep Q hQ).isPage.pageLink_congr (hlink hQ)).symm
  · intro Q' hQ'
    rw [hall] at hQ'
    obtain ⟨Q, hQ, rfl⟩ := List.mem_map.1 hQ'
    by_cases hQP : Q.page = P.page
    · obtain rfl : Q = P := List.inj_on_of_nodup_map
        ((pages_sublist_owned _).nodup h.nodup) hQ hP hQP
      exact hPrep.mark hE (hdata hQ) hlt hclear hinv
    · rw [LogPage.mark_of_notMem]
      · refine (h.rep Q hQ).congr fun q hq => hother ((h.rep Q hQ).isPage_own q hq) ?_
        rcases List.mem_cons.1 hq with rfl | hq
        · exact hQP
        · rintro rfl
          exact hdata hQ hq
      · intro E' hE' hc
        exact hQP (((h.rep Q hQ).logPageOff_eq hE').symm.trans (hc ▸ hPrep.logPageOff_eq hE))
  · rw [LogPage.mark_page, LogPage.length_mark, h.tail]
  · rw [hall, owned_mark]
    exact h.nodup
  · rw [hall, owned_mark]
    exact h.inUse

end Mark

end Atfs
