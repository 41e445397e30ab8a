import Atfs.Gc.Basic
import Atfs.Log.Rep
import Atfs.Library.MarkRuns
import Mathlib.Data.Nat.Bitwise

/-!
# The runs of an entry

The pages of an entry are cut into runs of valid and of invalid pages. The loops of `gc_log_block`
follow the links of the data chain and the bits of the bitmap in step, so a run ends at the place
where the bits change and behind the page that stands there.
-/

namespace Atfs

open ByteMemory LinkedChain MarkRuns

/-- Is page `i` of the entry invalid? -/
def LogEntry.invalid (E : LogEntry) (i : Nat) : Bool := E.bitmap.testBit i

/-- The pages of the entry from `k` up to `j`. -/
def LogEntry.cut (E : LogEntry) (k j : Nat) : List Nat := (E.pages.take j).drop k

/-- The runs of valid pages of the entry, from page `j` on. -/
def LogEntry.validRuns (E : LogEntry) (j : Nat) : List (Nat × Nat) :=
  clearRuns E.invalid E.pages.length j

/-- The invalid pages of the entry, from page `j` on. -/
def LogEntry.invalidFrom (E : LogEntry) (j : Nat) : List Nat :=
  ((List.range' j (E.pages.length - j)).filter E.invalid).filterMap (E.pages[·]?)

/-- The entry stands in memory, and `data` starts the chain of its pages from page `j` on. -/
structure LogEntry.Rest (E : LogEntry) (m : Memory) (data j : Nat) : Prop where
  words : E.Words m
  chain : Segment (pageLink m) data (E.pages.drop j) offsetNull
  offset : ∀ q ∈ E.pages.drop j, ListNode.offset.get m (q + 4096) = q
  page : ∀ q ∈ E.pages, IsPage q
  nodup : E.pages.Nodup
  le : E.pages.length ≤ 64

section Cut

variable {E : LogEntry} {i j k q : Nat}

theorem LogEntry.length_cut (hj : j ≤ E.pages.length) : (E.cut k j).length = j - k := by
  simp [LogEntry.cut, hj]

theorem LogEntry.mem_cut : q ∈ E.cut k j ↔ ∃ i, k ≤ i ∧ i < j ∧ E.pages[i]? = some q := by
  rw [LogEntry.cut, List.mem_iff_getElem?]
  constructor
  · rintro ⟨i, hi⟩
    rw [List.getElem?_drop, List.getElem?_take] at hi
    split_ifs at hi with h
    exact ⟨k + i, Nat.le_add_right _ _, h, hi⟩
  · rintro ⟨i, hk, hj, hi⟩
    refine ⟨i - k, ?_⟩
    rw [List.getElem?_drop, List.getElem?_take, Nat.add_sub_cancel' hk, if_pos hj, hi]

theorem LogEntry.cut_sublist (E : LogEntry) (k j : Nat) : (E.cut k j).Sublist E.pages :=
  (List.drop_sublist _ _).trans (List.take_sublist _ _)

theorem LogEntry.cut_append_drop (hkj : k ≤ j) : E.cut k j ++ E.pages.drop j = E.pages.drop k := by
  rw [LogEntry.cut]
  by_cases hj : j ≤ E.pages.length
  · rw [← List.drop_append_of_le_length (by rw [List.length_take]; omega), List.take_append_drop]
  · rw [List.take_of_length_le (by omega),
      List.drop_of_length_le (show E.pages.length ≤ j by omega), List.append_nil]

theorem LogEntry.cut_cons (hkj : k < j) (hj : j ≤ E.pages.length) :
    E.cut k j = E.pages[k] :: E.cut (k + 1) j := by
  have hk : k < (E.pages.take j).length := by
    rw [List.length_take]
    omega
  rw [LogEntry.cut, List.drop_eq_getElem_cons hk, List.getElem_take, LogEntry.cut]

theorem LogEntry.cut_eq_filterMap (hj : j ≤ E.pages.length) :
    E.cut k j = (List.range' k (j - k)).filterMap (E.pages[·]?) := by
  obtain ⟨d, hd⟩ : ∃ d, j - k = d := ⟨_, rfl⟩
  induction d generalizing k with
  | zero =>
    rw [hd, List.range'_zero, List.filterMap_nil, ← List.length_eq_zero_iff,
      LogEntry.length_cut hj, hd]
  | succ d ih =>
    rw [LogEntry.cut_cons (by omega) hj, hd, List.range'_succ, List.filterMap_cons,
      List.getElem?_eq_getElem (by omega), ih (by omega), show j - (k + 1) = d by omega]

/-- The invalid pages are those of the runs of invalid pages. -/
theorem LogEntry.invalidFrom_step {e e' : Nat} (hje : j ≤ e) (hee : e ≤ e')
    (he : e' ≤ E.pages.length) (hclear : ∀ i, j ≤ i → i < e → E.invalid i = false)
    (hset : ∀ i, e ≤ i → i < e' → E.invalid i = true) :
    E.invalidFrom j = E.cut e e' ++ E.invalidFrom e' := by
  have hsplit : List.range' j (E.pages.length - j) = List.range' j (e - j) ++
      (List.range' e (e' - e) ++ List.range' e' (E.pages.length - e')) := by
    rw [show E.pages.length - j = e - j + (e' - e + (E.pages.length - e')) by omega,
      ← List.range'_append_1, ← List.range'_append_1, show j + (e - j) = e by omega,
      show e + (e' - e) = e' by omega]
  have hnone : (List.range' j (e - j)).filter E.invalid = [] := by
    refine List.filter_eq_nil_iff.2 fun i hi => ?_
    rw [List.mem_range'_1] at hi
    simp [hclear i hi.1 (by omega)]
  have hall : (List.range' e (e' - e)).filter E.invalid = List.range' e (e' - e) := by
    refine List.filter_eq_self.2 fun i hi => ?_
    rw [List.mem_range'_1] at hi
    exact hset i hi.1 (by omega)
  rw [LogEntry.invalidFrom, hsplit, List.filter_append, List.filter_append, hnone, hall,
    List.nil_append, List.filterMap_append, LogEntry.cut_eq_filterMap he]
  rfl

theorem LogEntry.invalidFrom_length : E.invalidFrom E.pages.length = [] := by
  simp [LogEntry.invalidFrom]

end Cut

/-! ## Walking a run -/

section Walk

variable {E : LogEntry} {m : Memory} {data i j k c r prev tail : Nat} {v : Bool}

theorem entryInvalidPage_eq (h : E.Words m) (hi : i < 64) :
    entryInvalidPage m E.off i = E.invalid i := by
  rw [entryInvalidPage, h.bitmap, Nat.mod_eq_of_lt hi, Nat.shiftLeft_eq, Nat.one_mul,
    Nat.and_two_pow, LogEntry.invalid]
  cases hbit : E.bitmap.testBit i with
  | false => simp
  | true => simp

/-- The walk stops where the bits do, with the node of the last page of the run in `prev_node`. -/
theorem walkRun_spec (h : E.Words m) (hle : E.pages.length ≤ 64)
    (hpage : ∀ q ∈ E.pages, IsPage q)
    (hlink : ∀ (i q q' : Nat), j ≤ i → E.pages[i]? = some q → E.pages[i + 1]? = some q' →
      pageLink m q = q')
    (hr : j + r = E.pages.length) (htail : ∀ q, E.pages[j]? = some q → tail = q + 4096)
    {w : RunVars} (hw : walkRun m E.off v r ⟨j, prev, tail, c⟩ = w) :
    w.j = runEnd E.invalid v r j ∧ w.count + j = c + w.j ∧ (w.j = j → w.prevNode = prev) ∧
      (j < w.j → ∃ q, E.pages[w.j - 1]? = some q ∧ w.prevNode = q + 4096) := by
  induction r generalizing j prev tail c with
  | zero =>
    unfold walkRun at hw
    subst hw
    exact ⟨rfl, rfl, fun _ => rfl, fun h => absurd h (lt_irrefl _)⟩
  | succ r ih =>
    have hj : j < E.pages.length := by omega
    have hjq := List.getElem?_eq_getElem hj
    unfold walkRun at hw
    simp only [h.numPages, entryInvalidPage_eq h (show j < 64 by omega)] at hw
    by_cases hbit : E.invalid j = v
    · have hend : runEnd E.invalid v (r + 1) j = runEnd E.invalid v r (j + 1) := if_pos hbit
      have hle' := le_runEnd (b := E.invalid) (v := v) (r := r) (j := j + 1)
      have htail' := htail _ hjq
      rw [if_pos ⟨hj, hbit⟩] at hw
      obtain ⟨hj', hcount, hfirst, hprev⟩ := ih (fun i q q' hi => hlink i q q' (by omega))
        (by omega)
        (fun q hq => by
          have hlt := (List.getElem?_eq_some_iff.1 hq).1
          rw [if_pos (by omega), htail', nextNode, ← (hpage _ (List.getElem_mem hj)).pageLink_eq,
            hlink j _ q le_rfl hjq hq, (hpage q (List.mem_of_getElem? hq)).getNvmPageNodeAddr_eq])
            hw
      refine ⟨hj'.trans hend.symm, by omega, fun h => by omega, fun _ => ?_⟩
      rcases hle'.eq_or_lt with heq | hlt
      · -- the run ends here, so the loop has just set `prev_node`
        rw [hj', ← heq, Nat.add_sub_cancel]
        exact ⟨_, hjq, (hfirst (hj'.trans heq.symm)).trans htail'⟩
      · exact hprev (by omega)
    · rw [if_neg fun hc => hbit hc.2] at hw
      subst hw
      rw [runEnd_of_ne hbit]
      exact ⟨rfl, rfl, fun _ => rfl, fun h => absurd h (lt_irrefl _)⟩

end Walk

section Rest

variable {E : LogEntry} {m m' : Memory} {data i j k q e : Nat} {v : Bool}

/-- What is left of an entry is decided by its slot and by the nodes of the pages left. -/
theorem LogEntry.Rest.congr (h : E.Rest m data j)
    (hslot : Set.EqOn m' m (Set.Ico E.off (E.off + 48)))
    (hnode : ∀ q ∈ E.pages.drop j, Set.EqOn m' m (Set.Ico (q + 4096) (q + 4112))) :
    E.Rest m' data j where
  words := h.words.congr hslot
  chain := h.chain.congr fun q hq => (h.page q (List.mem_of_mem_drop hq)).pageLink_congr
    fun a ha => (hnode q hq (by rw [Set.mem_Ico] at *; omega)).symm
  offset := fun q hq => by
    refine (Field.get_congr fun a ha => hnode q hq ?_).trans (h.offset q hq)
    simp only [Field.bytes, ListNode.offset_off, ListNode.offset_size, Set.mem_Ico] at ha
    rw [Set.mem_Ico]
    omega
  page := h.page
  nodup := h.nodup
  le := h.le

theorem LogEntry.Stored.rest (h : E.Stored m) : E.Rest m (FileLogEntry.data.get m E.off) 0 where
  words := h.words
  chain := h.words.data.symm ▸ h.chain.chain
  offset := h.chain.offset
  page := h.chain.page
  nodup := h.chain.nodup
  le := h.le

theorem LogEntry.Rest.link (h : E.Rest m data j) {p : Nat} (hi : j ≤ i) (hp : E.pages[i]? = some p)
    (hq : E.pages[i + 1]? = some q) : pageLink m p = q := by
  obtain ⟨hip, rfl⟩ := List.getElem?_eq_some_iff.1 hp
  obtain ⟨hiq, rfl⟩ := List.getElem?_eq_some_iff.1 hq
  have hlen : i - j + 1 < (E.pages.drop j).length := by
    rw [List.length_drop]
    omega
  have hlink := h.chain.link hlen
  rw [List.getElem_drop, List.getElem_drop] at hlink
  simpa only [show j + (i - j) = i by omega, show j + (i - j + 1) = i + 1 by omega] using hlink

/-- The run from page `j` on: its pages, the node of the last of them and how many they are. -/
theorem runFrom_spec (h : E.Rest m data j) (hj : j < E.pages.length) (hbit : E.invalid j = v)
    (he : e = runEnd E.invalid v (E.pages.length - j) j) :
    j < e ∧ e ≤ E.pages.length ∧ ∃ q, E.pages[e - 1]? = some q ∧
      (runFrom m E.off data j v).j = e ∧ (runFrom m E.off data j v).count = e - j ∧
      (runFrom m E.off data j v).prevNode = q + 4096 := by
  obtain ⟨w, hw⟩ : ∃ w, runFrom m E.off data j v = w := ⟨_, rfl⟩
  rw [hw]
  have hhead : E.pages[j]? = some data := by
    have hchain := h.chain
    rw [List.drop_eq_getElem_cons hj] at hchain
    rw [List.getElem?_eq_getElem hj, hchain.head_eq]
  have hdata := h.page data (List.mem_of_getElem? hhead)
  rw [runFrom, h.words.numPages, hdata.getNvmPageNodeAddr_eq] at hw
  obtain ⟨hwj, hcount, -, hprev⟩ := walkRun_spec h.words h.le h.page
    (fun i p q hi hp hq => h.link hi hp hq) (by omega)
    (fun q hq => by rw [Option.some.inj (hhead.symm.trans hq)]) hw
  rw [← he] at hwj
  have hlt : j < e := he ▸ lt_runEnd (by omega) hbit
  have hle := runEnd_le (b := E.invalid) (v := v) (r := E.pages.length - j) (j := j)
  obtain ⟨q, hq, hnode⟩ := hprev (by omega)
  exact ⟨hlt, by omega, q, hwj ▸ hq, hwj, by omega, hnode⟩

/-- Cutting the chain behind page `q`, the last of a run. -/
theorem LogEntry.Rest.cut (h : E.Rest m data j) (hje : j < e) (hle : e ≤ E.pages.length)
    (hq : E.pages[e - 1]? = some q) (hslot : Disjoint (linkBytes q) (Set.Ico E.off (E.off + 48))) :
    PageChain (ListNode.nextOffset.set m (q + 4096) offsetNull) data (E.cut j e) ∧
      E.Rest (ListNode.nextOffset.set m (q + 4096) offsetNull) (pageLink m q) e := by
  have hqpage := h.page q (List.mem_of_getElem? hq)
  have hsplit := LogEntry.cut_append_drop (E := E) hje.le
  have hnodup : (E.cut j e ++ E.pages.drop e).Nodup :=
    hsplit ▸ (List.drop_sublist _ _).nodup h.nodup
  obtain ⟨xs, hxs⟩ : ∃ xs, E.cut j e = xs ++ [q] := by
    refine ⟨(E.cut j e).dropLast, (List.dropLast_append_getLast? q ?_).symm⟩
    rw [List.getLast?_eq_getElem?, LogEntry.length_cut hle, LogEntry.cut, List.getElem?_drop,
      List.getElem?_take, show j + (e - j - 1) = e - 1 by omega, if_pos (by omega), hq]
    exact rfl
  have hqxs : q ∉ xs := fun hc => by
    have := (List.nodup_append'.1 (hxs ▸ (List.nodup_append'.1 hnodup).1)).2.2
    exact this hc (List.mem_singleton_self q)
  have hchain := h.chain
  rw [← hsplit, hxs] at hchain
  obtain ⟨r, hrun, hrest⟩ := segment_append.1 hchain
  obtain rfl : pageLink m q = r := (segment_snoc.1 hrun).2
  have hpages {p : Nat} (hp : p ∈ E.pages.drop j) : IsPage p := h.page p (List.mem_of_mem_drop hp)
  have hlink {p : Nat} (hp : IsPage p) :
    pageLink (ListNode.nextOffset.set m (q + 4096) offsetNull) p =
      Function.update (pageLink m) q offsetNull p := hp.pageLink_set hqpage (by decide) m
  have hmem {p : Nat} (hp : p ∈ E.cut j e) : p ∈ E.pages.drop j :=
    hsplit ▸ List.mem_append_left _ hp
  have hoffset {p : Nat} (hp : p ∈ E.pages.drop j) :
      ListNode.offset.get (ListNode.nextOffset.set m (q + 4096) offsetNull) (p + 4096) = p := by
    refine Eq.trans ?_ (h.offset p hp)
    by_cases hpq : p = q
    · subst hpq
      exact Field.get_set_of_disjoint _ _ _ (by simp)
    · have := (hpages hp).apart hqpage hpq
      exact Field.get_set_of_apart _ _ _ (by omega)
  refine ⟨⟨?_, (List.nodup_append'.1 hnodup).1, fun p hp => hpages (hmem hp),
    fun p hp => hoffset (hmem hp)⟩, ⟨?_, ?_, fun p hp => hoffset ?_, h.page, h.nodup, h.le⟩⟩
  · rw [hxs]
    exact (hrun.relink_last hqxs).congr fun p hp => (hlink (hpages (hmem (hxs ▸ hp)))).symm
  · exact h.words.congr ((changesOnly_setLink m q _).eqOn hslot)
  · refine hrest.congr fun p hp => ?_
    have hpq : p ≠ q := by
      rintro rfl
      exact (List.nodup_append'.1 hnodup).2.2
        (hxs ▸ List.mem_append_right _ (List.mem_singleton_self _)) hp
    rw [hlink (h.page p (List.mem_of_mem_drop hp)), Function.update_of_ne hpq]
  · exact hsplit ▸ List.mem_append_right _ hp

end Rest

end Atfs
