import Atfs.Log.Basic
import Mathlib.Algebra.BigOperators.Group.Finset.Piecewise
import Mathlib.Algebra.Group.Action.Defs
import Mathlib.Algebra.Order.BigOperators.Group.Finset

/-!
# Invalidation (nvmio.c)

`invalidate_old_log_entry` sets one bit of the bitmap of an entry and counts the page in the entry
and on the log page, and the entry on the log page once all its pages are invalid. Four words on two
levels are kept in step, and in whatever order the pages of a log page are named the outcome is
decided by which were.
-/

namespace Atfs

open ByteMemory

/-! ## One call -/

/-- The position of the bit `invalidate_old_log_entry` sets, before the shift takes it modulo 64. -/
def invalidatePos (m : Memory) (oldEntry pageOff : Nat) : Nat :=
  subU64 (pageOff / pageSize) (FileLogEntry.startWriteOff.get m oldEntry / pageSize)

/-- The words that count invalid pages: those of the entry `e` and those of the node of page `T`. -/
def markBytes (T e : Nat) : Set Nat :=
  Set.Ico (e + 36) (e + 48) ∪ (Set.Ico (T + 4116) (T + 4120) ∪ Set.Ico (T + 4124) (T + 4128))

@[simp] theorem mem_markBytes {T e a : Nat} : a ∈ markBytes T e ↔ e + 36 ≤ a ∧ a < e + 48 ∨
    (T + 4116 ≤ a ∧ a < T + 4120 ∨ T + 4124 ≤ a ∧ a < T + 4128) := Iff.rfl

/-- What a call for the bit `pos` of the entry `e` on page `T` does. -/
structure Invalidated (T e pos : Nat) (m m' : Memory) : Prop where
  bitmap : FileLogEntry.bitmap.get m' e = FileLogEntry.bitmap.get m e ||| 1 <<< pos
  invalidPages : FileLogEntry.invalidPages.get m' e =
    (FileLogEntry.invalidPages.get m e + 1) % 2 ^ 32
  pageCount : ListNode.invalidPages.get m' (T + 4096) =
    (ListNode.invalidPages.get m (T + 4096) + 1) % 2 ^ 32
  entryCount : ListNode.invalidCnt.get m' (T + 4096) =
    if FileLogEntry.numPages.get m e = (FileLogEntry.invalidPages.get m e + 1) % 2 ^ 32 then
      (ListNode.invalidCnt.get m (T + 4096) + 1) % 2 ^ 32
    else ListNode.invalidCnt.get m (T + 4096)
  frame : ChangesOnly (markBytes T e) m m'

section Call

variable {T e pos off : Nat} {m : Memory}

theorem invalidateOldLogEntry_spec (hT : IsPage T) (he : T ≤ e) (he' : e + 48 ≤ T + 4096)
    (hpos : invalidatePos m e off = pos) (hlt : pos < 64) :
    Invalidated T e pos m (invalidateOldLogEntry m e off) := by
  have hnode : entry2logPage e = T + 4096 := hT.entry2logPage_eq (by rw [mem_pageBytes]; omega)
  have hshift :
      subU64 (off / pageSize) (FileLogEntry.startWriteOff.get m e / pageSize) % 64 = pos := by
    rw [← invalidatePos, hpos, Nat.mod_eq_of_lt hlt]
  have hbits : FileLogEntry.bitmap.get m e ||| 1 <<< pos < 2 ^ 64 := by
    refine Nat.or_lt_two_pow (Field.get_lt _ _ _) ?_
    rw [Nat.shiftLeft_eq, one_mul]
    exact Nat.pow_lt_pow_right (by decide) hlt
  -- the words of the entry and of the node do not meet
  have entry (f : Field 48) (g : Field 40) (m : Memory) (v : Nat) :
      f.get (g.set m (T + 4096) v) e = f.get m e := Field.get_set_of_apart _ _ _ (by omega)
  have node (f : Field 40) (g : Field 48) (m : Memory) (v : Nat) :
      f.get (g.set m e v) (T + 4096) = f.get m (T + 4096) := Field.get_set_of_apart _ _ _ (by omega)
  have frameE (f : Field 48) (m : Memory) (v : Nat) (hf : 36 ≤ f.off) :
      ChangesOnly (markBytes T e) m (f.set m e v) := (f.changesOnly_set m e v).mono fun a ha => by
    have := f.fits
    rw [Field.bytes, Set.mem_Ico] at ha
    rw [mem_markBytes]
    omega
  have frameN (f : Field 40) (m : Memory) (v : Nat) (hf : f.off = 20 ∨ f.off = 28)
    (hsize : f.size = 4) :
      ChangesOnly (markBytes T e) m (f.set m (T + 4096) v) :=
    (f.changesOnly_set m _ v).mono fun a ha => by
      rw [Field.bytes, Set.mem_Ico] at ha
      rw [mem_markBytes]
      omega
  rw [invalidateOldLogEntry]
  simp only [hnode, hshift]
  obtain ⟨m₁, hm₁⟩ : ∃ m₁, m₁ =
    FileLogEntry.bitmap.set m e (FileLogEntry.bitmap.get m e ||| 1 <<< pos) := ⟨_, rfl⟩
  have inv₁ : FileLogEntry.invalidPages.get m₁ e = FileLogEntry.invalidPages.get m e :=
    hm₁ ▸ Field.get_set_of_disjoint _ _ _ (by simp)
  obtain ⟨m₂, hm₂⟩ : ∃ m₂, m₂ = FileLogEntry.invalidPages.set m₁ e
    (FileLogEntry.invalidPages.get m₁ e + 1) := ⟨_, rfl⟩
  have inv₂ : FileLogEntry.invalidPages.get m₂ e = (FileLogEntry.invalidPages.get m e + 1) %
      2 ^ 32 := by
    rw [hm₂, Field.get_set_self, inv₁]
    rfl
  have bit₂ : FileLogEntry.bitmap.get m₂ e = FileLogEntry.bitmap.get m e ||| 1 <<< pos := by
    rw [hm₂, Field.get_set_of_disjoint _ _ _ (by simp), hm₁, Field.get_set_self_of_lt _ _ hbits]
  have num₂ : FileLogEntry.numPages.get m₂ e = FileLogEntry.numPages.get m e := by
    rw [hm₂, Field.get_set_of_disjoint _ _ _ (by simp), hm₁,
      Field.get_set_of_disjoint _ _ _ (by simp)]
  have node₂ (f : Field 40) : f.get m₂ (T + 4096) = f.get m (T + 4096) := by
    rw [hm₂, node, hm₁, node]
  have frame₂ : ChangesOnly (markBytes T e) m m₂ :=
    (hm₁ ▸ frameE _ _ _ (by simp) : ChangesOnly _ m m₁).trans (hm₂ ▸ frameE _ _ _ (by simp))
  obtain ⟨m₃, hm₃⟩ : ∃ m₃, m₃ = ListNode.invalidPages.set m₂ (T + 4096)
    (ListNode.invalidPages.get m₂ (T + 4096) + 1) := ⟨_, rfl⟩
  have entry₃ (f : Field 48) : f.get m₃ e = f.get m₂ e := by rw [hm₃, entry]
  have page₃ : ListNode.invalidPages.get m₃ (T + 4096) =
      (ListNode.invalidPages.get m (T + 4096) + 1) % 2 ^ 32 := by
    rw [hm₃, Field.get_set_self, node₂]
    rfl
  have cnt₃ : ListNode.invalidCnt.get m₃ (T + 4096) = ListNode.invalidCnt.get m (T + 4096) := by
    rw [hm₃, Field.get_set_of_disjoint _ _ _ (by simp), node₂]
  have frame₃ : ChangesOnly (markBytes T e) m m₃ :=
    frame₂.trans (hm₃ ▸ frameN _ _ _ (.inr rfl) rfl)
  rw [← hm₁, ← hm₂, ← hm₃, entry₃, entry₃, num₂, inv₂]
  split_ifs with hall
  · refine ⟨?_, ?_, ?_, ?_, frame₃.trans (frameN _ _ _ (.inl rfl) rfl)⟩
    · rw [entry, entry₃, bit₂]
    · rw [entry, entry₃, inv₂]
    · rw [Field.get_set_of_disjoint _ _ _ (by simp), page₃]
    · rw [if_pos hall, Field.get_set_self, cnt₃]
      rfl
  · refine ⟨?_, ?_, page₃, ?_, frame₃⟩
    · rw [entry₃, bit₂]
    · rw [entry₃, inv₂]
    · rw [if_neg hall, cnt₃]

end Call

/-! ## Many calls on one log page -/

/-- A call on a log page: the place of its entry and the file offset. -/
structure InvalidateCall where
  entry : Nat
  pageOff : Nat

namespace InvalidateCall

def exec (T : Nat) (m : Memory) (c : InvalidateCall) : Memory :=
  invalidateOldLogEntry m (T + 48 * c.entry) c.pageOff

/-- The page the call names: the entry it belongs to, and its place among the pages of the entry. -/
def page (T : Nat) (m : Memory) (c : InvalidateCall) : Nat × Nat :=
  (c.entry, c.pageOff / pageSize - FileLogEntry.startWriteOff.get m (T + 48 * c.entry) / pageSize)

/-- The offset is that of a page of one of the first `n` entries. -/
structure Names (T n : Nat) (m : Memory) (c : InvalidateCall) : Prop where
  entry : c.entry < n
  pageOff : c.pageOff < 2 ^ 64
  start : FileLogEntry.startWriteOff.get m (T + 48 * c.entry) / pageSize ≤ c.pageOff / pageSize
  stop : c.pageOff / pageSize < FileLogEntry.startWriteOff.get m (T + 48 * c.entry) / pageSize +
    FileLogEntry.numPages.get m (T + 48 * c.entry)

end InvalidateCall

def invalidateAll (T : Nat) (m : Memory) (cs : List InvalidateCall) : Memory :=
  cs.foldl (InvalidateCall.exec T) m

@[simp] theorem invalidateAll_nil {T : Nat} {m : Memory} : invalidateAll T m [] = m := by
  rw [invalidateAll, List.foldl_nil]

@[simp] theorem invalidateAll_cons {T : Nat} {m : Memory} {c : InvalidateCall}
    {cs : List InvalidateCall} :
    invalidateAll T m (c :: cs) = invalidateAll T (c.exec T m) cs := by
  rw [invalidateAll, List.foldl_cons, invalidateAll]

/-- The log page `T` holds `n` entries of which no page is invalid. -/
structure CleanEntries (T n : Nat) (m : Memory) : Prop where
  isPage : IsPage T
  room : 48 * n ≤ pageSize
  pages : ∀ i < n, 1 ≤ FileLogEntry.numPages.get m (T + 48 * i) ∧
    FileLogEntry.numPages.get m (T + 48 * i) ≤ maxNumPagePerEntry
  bitmap : ∀ i < n, FileLogEntry.bitmap.get m (T + 48 * i) = 0
  invalidPages : ∀ i < n, FileLogEntry.invalidPages.get m (T + 48 * i) = 0
  pageCount : ListNode.invalidPages.get m (T + 4096) = 0
  entryCount : ListNode.invalidCnt.get m (T + 4096) = 0

/-- The number of bits set in a word. -/
def popCount (b : Nat) : Nat := ((Finset.range 64).filter (b.testBit ·)).card

/-- How many pages of entry `i` are marked. -/
def markCount (N : Finset (Nat × Nat)) (i : Nat) : Nat :=
  ((Finset.range 64).filter fun k => (i, k) ∈ N).card

/-- From `m₀` on exactly the pages `N` have been invalidated. -/
structure Marked (T n : Nat) (m₀ : Memory) (N : Finset (Nat × Nat)) (m : Memory) : Prop where
  inside : ∀ i k, (i, k) ∈ N → i < n ∧ k < FileLogEntry.numPages.get m₀ (T + 48 * i)
  bitmap : ∀ i < n, ∀ k, (FileLogEntry.bitmap.get m (T + 48 * i)).testBit k = decide ((i, k) ∈ N)
  invalidPages : ∀ i < n, FileLogEntry.invalidPages.get m (T + 48 * i) = markCount N i
  pageCount : ListNode.invalidPages.get m (T + 4096) = ∑ i ∈ Finset.range n, markCount N i
  entryCount : ListNode.invalidCnt.get m (T + 4096) = ((Finset.range n).filter fun i =>
    markCount N i = FileLogEntry.numPages.get m₀ (T + 48 * i)).card
  frame : ChangesOnly {a | ∃ i < n, a ∈ markBytes T (T + 48 * i)} m₀ m

section Count

variable {N : Finset (Nat × Nat)} {i j k l : Nat}

theorem markCount_insert (hk : k < 64) (hnew : (i, k) ∉ N) :
    markCount (insert (i, k) N) j = if j = i then markCount N j + 1 else markCount N j := by
  rw [markCount, markCount]
  split_ifs with h
  · subst h
    have hset : (Finset.range 64).filter (fun l => (j, l) ∈ insert (j, k) N) =
        insert k ((Finset.range 64).filter fun l => (j, l) ∈ N) := by
      ext l
      simp only [Finset.mem_filter, Finset.mem_range, Finset.mem_insert, Prod.mk.injEq, true_and]
      grind
    rw [hset, Finset.card_insert_of_notMem (by simp [hnew])]
  · refine congrArg Finset.card (Finset.filter_congr fun l _ => ?_)
    simp [h]

theorem markCount_le (h : ∀ k, (i, k) ∈ N → k < l) : markCount N i ≤ l := by
  have hsub : ((Finset.range 64).filter fun k => (i, k) ∈ N) ⊆ Finset.range l := by
    intro k hk
    exact Finset.mem_range.2 (h k (Finset.mem_filter.1 hk).2)
  exact (Finset.card_le_card hsub).trans (Finset.card_range l).le

/-- All pages are marked if as many are as there are. -/
theorem markCount_eq_iff (hl : l ≤ 64) (h : ∀ k, (i, k) ∈ N → k < l) :
    markCount N i = l ↔ ∀ k < l, (i, k) ∈ N := by
  have hsub : ((Finset.range 64).filter fun k => (i, k) ∈ N) ⊆ Finset.range l := by
    intro k hk
    exact Finset.mem_range.2 (h k (Finset.mem_filter.1 hk).2)
  constructor
  · intro heq k hk
    have hset := Finset.eq_of_subset_of_card_le hsub (by rw [Finset.card_range]; exact heq.ge)
    have hmem : k ∈ (Finset.range 64).filter fun k => (i, k) ∈ N := hset ▸ Finset.mem_range.2 hk
    exact (Finset.mem_filter.1 hmem).2
  · intro hall
    refine le_antisymm (markCount_le h) ?_
    rw [markCount, ← Finset.card_range l]
    refine Finset.card_le_card fun k hk => ?_
    rw [Finset.mem_range] at hk
    exact Finset.mem_filter.2 ⟨Finset.mem_range.2 (hk.trans_le hl), hall k hk⟩

theorem sum_markCount_insert {n : Nat} (hi : i < n) (hk : k < 64) (hnew : (i, k) ∉ N) :
    ∑ j ∈ Finset.range n, markCount (insert (i, k) N) j = ∑ j ∈ Finset.range n,
      markCount N j + 1 := by
  have hsplit (j : Nat) : markCount (insert (i, k) N) j = markCount N j + if j =
      i then 1 else 0 := by
    rw [markCount_insert hk hnew]
    split_ifs <;> rfl
  rw [Finset.sum_congr rfl fun j _ => hsplit j, Finset.sum_add_distrib, Finset.sum_ite_eq',
    if_pos (Finset.mem_range.2 hi)]

/-- How many entries of `num` pages each are marked as a whole. -/
theorem card_full_insert {n : Nat} {num : Nat → Nat} (hi : i < n) (hk : k < 64) (hnew : (i, k) ∉ N)
    (hfit : markCount N i + 1 ≤ num i) :
    ((Finset.range n).filter fun j => markCount (insert (i, k) N) j = num j).card =
      if num i = markCount N i + 1 then
        ((Finset.range n).filter fun j => markCount N j = num j).card + 1
      else ((Finset.range n).filter fun j => markCount N j = num j).card := by
  have hold : i ∉ (Finset.range n).filter fun j => markCount N j = num j := by
    intro hmem
    have := (Finset.mem_filter.1 hmem).2
    omega
  simp only [markCount_insert hk hnew]
  split_ifs with hall
  · have hset : ((Finset.range n).filter fun j =>
        (if j = i then markCount N j + 1 else markCount N j) = num j) =
          insert i ((Finset.range n).filter fun j => markCount N j = num j) := by
      ext j
      rw [Finset.mem_insert, Finset.mem_filter, Finset.mem_filter, Finset.mem_range]
      by_cases hji : j = i
      · subst hji
        simp [hi, hall]
      · simp [hji]
    rw [hset, Finset.card_insert_of_notMem hold]
  · refine congrArg Finset.card (Finset.filter_congr fun j _ => ?_)
    by_cases hji : j = i
    · subst hji
      rw [if_pos rfl]
      omega
    · rw [if_neg hji]

end Count

section Run

variable {T n i j k : Nat} {m₀ m m' : Memory} {N : Finset (Nat × Nat)} {c : InvalidateCall}
  {cs cs' pre post : List InvalidateCall}

/-- The slots of two entries do not meet, nor do they meet the node. -/
theorem CleanEntries.disjoint (h : CleanEntries T n m₀) (hj : j < n) (hij : i ≠ j) {a : Nat}
    (ha : T + 48 * j ≤ a) (ha' : a < T + 48 * j + 48) : a ∉ markBytes T (T + 48 * i) := by
  have hroom := h.room
  rw [pageSize_eq] at hroom
  rw [mem_markBytes]
  omega

/-- The words of an entry that no call writes. -/
theorem Marked.word (h : Marked T n m₀ N m) (hc : CleanEntries T n m₀) (hi : i < n) (f : Field 48)
    (hf : f.off + f.size ≤ 36) : f.get m (T + 48 * i) = f.get m₀ (T + 48 * i) := by
  refine h.frame.get f (Set.disjoint_left.2 ?_)
  rintro a ⟨j, hj, ha⟩ hc'
  rw [Field.bytes, Set.mem_Ico] at hc'
  by_cases hij : j = i
  · subst hij
    have hroom := hc.room
    rw [pageSize_eq] at hroom
    rw [mem_markBytes] at ha
    omega
  · exact hc.disjoint hi hij (by omega) (by omega) ha

theorem Marked.start (h : CleanEntries T n m₀) : Marked T n m₀ ∅ m₀ where
  inside := by simp
  bitmap := fun i hi k => by
    rw [h.bitmap i hi]
    simp
  invalidPages := fun i hi => by
    rw [h.invalidPages i hi]
    simp [markCount]
  pageCount := by
    rw [h.pageCount]
    simp [markCount]
  entryCount := by
    rw [h.entryCount]
    refine (Finset.card_eq_zero.2 (Finset.filter_eq_empty_iff.2 fun i hi => ?_)).symm
    have := (h.pages i (Finset.mem_range.1 hi)).1
    simp [markCount]
    omega
  frame := ChangesOnly.refl _ _

/-- The position of the bit is the place of the page in its entry. -/
theorem Marked.invalidatePos_eq (h : Marked T n m₀ N m) (hc : CleanEntries T n m₀)
    (hn : c.Names T n m₀) : invalidatePos m (T + 48 * c.entry) c.pageOff = (c.page T m₀).2 ∧
      (c.page T m₀).2 < FileLogEntry.numPages.get m₀ (T + 48 * c.entry) := by
  have hstart := hn.start
  have hstop := hn.stop
  have hlt : c.pageOff / pageSize < 2 ^ 64 := (Nat.div_le_self _ _).trans_lt hn.pageOff
  rw [invalidatePos, h.word hc hn.entry FileLogEntry.startWriteOff (by decide),
    subU64_of_le hstart hlt, InvalidateCall.page]
  exact ⟨rfl, by omega⟩

/-- One call marks the page it names. -/
theorem Marked.exec (h : Marked T n m₀ N m) (hc : CleanEntries T n m₀) (hn : c.Names T n m₀)
    (hnew : c.page T m₀ ∉ N) : Marked T n m₀ (insert (c.page T m₀) N) (c.exec T m) := by
  obtain ⟨hpos, hlt⟩ := h.invalidatePos_eq hc hn
  obtain ⟨i, k, hpage⟩ : ∃ i k, c.page T m₀ = (i, k) := ⟨_, _, rfl⟩
  obtain rfl : c.entry = i := congrArg Prod.fst hpage
  rw [hpage] at hpos hlt hnew ⊢
  have hi := hn.entry
  have hroom := hc.room
  rw [pageSize_eq] at hroom
  have hle := (hc.pages _ hi).2
  rw [show maxNumPagePerEntry = 64 from rfl] at hle
  have hk : k < 64 := by omega
  have hspec := invalidateOldLogEntry_spec hc.isPage (by omega) (by omega) hpos hk
  have hinside : ∀ j l, (j, l) ∈ insert (c.entry, k) N →
      j < n ∧ l < FileLogEntry.numPages.get m₀ (T + 48 * j) := by
    intro j l hl
    rcases Finset.mem_insert.1 hl with heq | hl
    · obtain ⟨rfl, rfl⟩ := Prod.mk.inj heq
      exact ⟨hi, hlt⟩
    · exact h.inside j l hl
  have hcounts (j : Nat) : markCount (insert (c.entry, k) N) j =
      if j = c.entry then markCount N j + 1 else markCount N j := markCount_insert hk hnew
  have hcount := hcounts c.entry
  rw [if_pos rfl] at hcount
  -- the counts fit their words
  have hfit : markCount N c.entry + 1 ≤ FileLogEntry.numPages.get m₀ (T + 48 * c.entry) :=
    hcount ▸ markCount_le fun l hl => (hinside _ l hl).2
  have hsum : ∑ j ∈ Finset.range n, markCount N j ≤ n * 64 := by
    have hbound := Finset.sum_le_card_nsmul (Finset.range n) (markCount N) 64 fun j _ =>
      (Finset.card_filter_le _ _).trans (Finset.card_range 64).le
    rwa [Finset.card_range, smul_eq_mul] at hbound
  have hmod : (FileLogEntry.invalidPages.get m (T + 48 * c.entry) + 1) % 2 ^ 32 =
      markCount N c.entry + 1 := by
    rw [h.invalidPages _ hi]
    omega
  have hother (j : Nat) (hj : j < n) (hne : j ≠ c.entry) (f : Field 48) :
      f.get (c.exec T m) (T + 48 * j) = f.get m (T + 48 * j) := by
    refine hspec.frame.get f (Set.disjoint_left.2 fun a ha hb => ?_)
    have := f.fits
    rw [Field.bytes, Set.mem_Ico] at hb
    exact hc.disjoint hj hne.symm (by omega) (by omega) ha
  refine ⟨hinside, fun j hj l => ?_, fun j hj => ?_, ?_, ?_,
    h.frame.trans (hspec.frame.mono fun a ha =>
    ⟨c.entry, hi, ha⟩)⟩
  · by_cases hji : j = c.entry
    · subst hji
      rw [InvalidateCall.exec, hspec.bitmap, Nat.testBit_or, h.bitmap _ hi,
        Nat.shiftLeft_eq, one_mul, Nat.testBit_two_pow]
      simp [Bool.or_comm, eq_comm]
    · rw [hother j hj hji, h.bitmap j hj]
      simp [hji]
  · rw [hcounts]
    split_ifs with hji
    · rw [hji, InvalidateCall.exec, hspec.invalidPages, hmod]
    · rw [hother j hj hji, h.invalidPages j hj]
  · rw [InvalidateCall.exec, hspec.pageCount, h.pageCount, sum_markCount_insert hi hk hnew]
    omega
  · have hcard := Finset.card_filter_le (Finset.range n) fun j =>
      markCount N j = FileLogEntry.numPages.get m₀ (T + 48 * j)
    rw [Finset.card_range] at hcard
    rw [InvalidateCall.exec, hspec.entryCount, h.word hc hi FileLogEntry.numPages (by decide), hmod,
      h.entryCount, card_full_insert hi hk hnew hfit]
    split_ifs
    · omega
    · rfl

/-- Calls that name pages not marked yet, each a different one, mark them all. -/
theorem Marked.invalidateAll (h : Marked T n m₀ N m) (hc : CleanEntries T n m₀)
    (hn : ∀ c ∈ cs, c.Names T n m₀) (hnodup : (cs.map (·.page T m₀)).Nodup)
    (hnew : ∀ c ∈ cs, c.page T m₀ ∉ N) :
    Marked T n m₀ (N ∪ (cs.map (·.page T m₀)).toFinset) (Atfs.invalidateAll T m cs) := by
  induction cs generalizing N m with
  | nil => simpa using h
  | cons c cs ih =>
    obtain ⟨hnc, hn⟩ := List.forall_mem_cons.1 hn
    obtain ⟨hcnew, hnew⟩ := List.forall_mem_cons.1 hnew
    rw [List.map_cons, List.nodup_cons] at hnodup
    have hstep := h.exec hc hnc hcnew
    have hrest := ih hstep hn hnodup.2 fun c' hc' hmem => by
      rcases Finset.mem_insert.1 hmem with heq | hmem
      · exact hnodup.1 (heq ▸ List.mem_map_of_mem hc')
      · exact hnew c' hc' hmem
    rw [invalidateAll_cons, List.map_cons, List.toFinset_cons, Finset.union_insert,
      ← Finset.insert_union]
    exact hrest

/-- The pages that were named decide the memory. -/
theorem Marked.unique (h : Marked T n m₀ N m) (h' : Marked T n m₀ N m') : m = m' := by
  funext a
  by_cases ha : ∃ i < n, a ∈ markBytes T (T + 48 * i)
  · obtain ⟨i, hi, ha⟩ := ha
    have hbitmap : FileLogEntry.bitmap.get m (T + 48 * i) =
        FileLogEntry.bitmap.get m' (T + 48 * i) :=
      Nat.eq_of_testBit_eq fun k => (h.bitmap i hi k).trans (h'.bitmap i hi k).symm
    have hinvalid := (h.invalidPages i hi).trans (h'.invalidPages i hi).symm
    have hpage := h.pageCount.trans h'.pageCount.symm
    have hentry := h.entryCount.trans h'.entryCount.symm
    rw [mem_markBytes] at ha
    rcases ha with ha | ha | ha
    · by_cases hlow : a < T + 48 * i + 40
      · exact Field.eqOn_of_get_eq hinvalid ⟨by simp; omega, by simp; omega⟩
      · exact Field.eqOn_of_get_eq hbitmap ⟨by simp; omega, by simp; omega⟩
    · exact Field.eqOn_of_get_eq hentry ⟨by simp; omega, by simp; omega⟩
    · exact Field.eqOn_of_get_eq hpage ⟨by simp; omega, by simp; omega⟩
  · exact (h.frame a ha).trans (h'.frame a ha).symm

/-- The words that count invalid pages count those of `named`. -/
structure CountsNamed (T n : Nat) (m m' : Memory) (named : List (Nat × Nat)) : Prop where
  bitmap : ∀ i < n, ∀ k, (FileLogEntry.bitmap.get m' (T + 48 * i)).testBit k = true ↔ (i, k) ∈ named
  invalidPages : ∀ i < n, FileLogEntry.invalidPages.get m' (T + 48 * i) =
    popCount (FileLogEntry.bitmap.get m' (T + 48 * i))
  pageCount : ListNode.invalidPages.get m' (T + 4096) =
    ∑ i ∈ Finset.range n, FileLogEntry.invalidPages.get m' (T + 48 * i)
  entryCount : ListNode.invalidCnt.get m' (T + 4096) = ((Finset.range n).filter fun i =>
    ∀ k < FileLogEntry.numPages.get m (T + 48 * i), (i, k) ∈ named).card

theorem Marked.countsNamed {named : List (Nat × Nat)} (h : Marked T n m₀ named.toFinset m)
    (hc : CleanEntries T n m₀) : CountsNamed T n m₀ m named where
  bitmap := fun i hi k => by
    rw [h.bitmap i hi, decide_eq_true_iff, List.mem_toFinset]
  invalidPages := fun i hi => by
    rw [h.invalidPages i hi, markCount, popCount]
    refine congrArg Finset.card (Finset.filter_congr fun k _ => ?_)
    rw [h.bitmap i hi, decide_eq_true_iff]
  pageCount := by
    rw [h.pageCount]
    exact Finset.sum_congr rfl fun i hi => (h.invalidPages i (Finset.mem_range.1 hi)).symm
  entryCount := by
    rw [h.entryCount]
    refine congrArg Finset.card (Finset.filter_congr fun i hi => ?_)
    have hi := Finset.mem_range.1 hi
    refine (markCount_eq_iff (hc.pages i hi).2 fun k hk => (h.inside i k hk).2).trans ?_
    simp only [List.mem_toFinset]

/-- However many pages of the entries of a log page are invalidated, in whatever order: the shift
always stays inside the entry, the four words count exactly the pages named, and the order does not
matter. -/
theorem invalidateAll_exact (hc : CleanEntries T n m) (hn : ∀ c ∈ cs, c.Names T n m)
    (hnodup : (cs.map (·.page T m)).Nodup) :
    (∀ pre c post, cs = pre ++ c :: post →
      invalidatePos (invalidateAll T m pre) (T + 48 * c.entry) c.pageOff <
          FileLogEntry.numPages.get (invalidateAll T m pre) (T + 48 * c.entry) ∧
        FileLogEntry.numPages.get (invalidateAll T m pre) (T + 48 * c.entry) ≤ 64) ∧
      CountsNamed T n m (invalidateAll T m cs) (cs.map (·.page T m)) ∧
      ∀ cs', cs'.Perm cs → invalidateAll T m cs' = invalidateAll T m cs := by
  have hrun (cs : List InvalidateCall) (hn : ∀ c ∈ cs, c.Names T n m)
      (hnodup : (cs.map (·.page T m)).Nodup) :
      Marked T n m (cs.map (·.page T m)).toFinset (invalidateAll T m cs) := by
    simpa using (Marked.start hc).invalidateAll hc hn hnodup (by simp)
  refine ⟨?_, (hrun cs hn hnodup).countsNamed hc, fun cs' hperm => ?_⟩
  · rintro pre c post rfl
    rw [List.map_append, List.nodup_append'] at hnodup
    have hpre := hrun pre (fun c' hc' => hn c' (List.mem_append_left _ hc')) hnodup.1
    have hnc := hn c (by simp)
    obtain ⟨hpos, hlt⟩ := hpre.invalidatePos_eq hc hnc
    rw [hpos, hpre.word hc hnc.entry FileLogEntry.numPages (by decide)]
    exact ⟨hlt, (hc.pages _ hnc.entry).2⟩
  · have hpages : (cs'.map (·.page T m)).Perm (cs.map (·.page T m)) := hperm.map _
    have hcs' := hrun cs' (fun c hc' => hn c (hperm.mem_iff.1 hc')) (hpages.nodup_iff.2 hnodup)
    rw [List.toFinset_eq_of_perm _ _ hpages] at hcs'
    exact hcs'.unique (hrun cs hn hnodup)

/-- A log page with an entry for the first two pages of a file and one for the third. -/
def twoEntries : Memory :=
  let m := FileLogEntry.numPages.set (fun _ => 0) 114688 2
  let m := FileLogEntry.numPages.set m 114736 1
  FileLogEntry.startWriteOff.set m 114736 8192

theorem twoEntries_clean : CleanEntries 114688 2 twoEntries where
  isPage := ⟨0, by decide, (pageOff_eq 0).symm⟩
  room := by decide
  pages := by decide
  bitmap := by decide
  invalidPages := by decide
  pageCount := by decide
  entryCount := by decide

/-- All three pages are invalidated, the second one first. -/
theorem invalidateAll_exact_sample :
    CountsNamed 114688 2 twoEntries
      (invalidateAll 114688 twoEntries [⟨0, 4096⟩, ⟨1, 8192⟩, ⟨0, 100⟩])
        [(0, 1), (1, 0), (0, 0)] := by
  have hnames : ∀ c ∈ [⟨0, 4096⟩, ⟨1, 8192⟩, ⟨0, 100⟩],
      InvalidateCall.Names 114688 2 twoEntries c := by
    intro c hc
    simp only [List.mem_cons, List.not_mem_nil, or_false] at hc
    rcases hc with rfl | rfl | rfl
    · exact ⟨by decide, by decide, by decide, by decide⟩
    · exact ⟨by decide, by decide, by decide, by decide⟩
    · exact ⟨by decide, by decide, by decide, by decide⟩
  exact (invalidateAll_exact twoEntries_clean hnames (by decide)).2.1

end Run

end Atfs
