import Atfs.Io.Copy

/-!
# One chunk of a write

What one round of the loop of `nvmio_write` does, seen from outside: which pages it
takes, what they hold afterwards, the entry it appends and the variables it leaves.
-/

namespace Atfs

open ByteMemory LinkedChain

/-! ## What a stretch of pages holds after a write -/

/-- The pages `pgs` hold the write of `w` bytes that starts at `o` in the first of them; the
user has the bytes from `u` on. `index` gives the old page of a file page, and `start` is
the file offset of the first page. -/
structure Written (buf : Memory) (index : Nat → Nat) (start o w u : Nat) (W : Set Nat)
    (pgs : List Nat) (m m' : Memory) : Prop where
  inside : ∀ i q, pgs[i]? = some q → ∀ b < 4096, o ≤ 4096 * i + b → 4096 * i + b < o + w →
    m' (q + b) = buf (u + (4096 * i + b - o))
  front : ∀ q, pgs[0]? = some q → ∀ b < o,
    m' (q + b) = if index start ≠ offsetNull then m (index start + b) else m (q + b)
  /-- Behind the write the last page is filled unless it is a chunk of its own, from an
  address 40 bytes further for every byte it holds. -/
  back : ∃ M, ChangesOnly W m M ∧ ∀ q, pgs[pgs.length - 1]? = some q →
    ∀ b < 4096, o + w ≤ 4096 * (pgs.length - 1) + b → m' (q + b) =
      if pgs.length % 64 ≠ 1 ∧ index (start + 4096 * (pgs.length - 1)) ≠ offsetNull then
        M (index (start + 4096 * (pgs.length - 1)) + 40 * ((o + w) % 4096) + (b - (o + w) % 4096))
      else m (q + b)

/-- Memory that differs elsewhere, before and after, holds the same write. -/
theorem Written.congr {buf : Memory} {index : Nat → Nat} {start o w u : Nat} {V W : Set Nat}
    {pgs : List Nat} {m₀ m m' m'' : Memory} (h : Written buf index start o w u V pgs m m')
    (ho : o ≤ 4096) (hVW : V ⊆ W) (hm : ChangesOnly W m₀ m)
    (hbody : ∀ q ∈ pgs, ∀ b < 4096, m (q + b) = m₀ (q + b))
    (hold : index start ≠ offsetNull → ∀ b < 4096, m (index start + b) = m₀ (index start + b))
    (hend : ∀ q ∈ pgs, ∀ b < 4096, m'' (q + b) = m' (q + b)) :
    Written buf index start o w u W pgs m₀ m'' where
  inside := fun i q hq b hb h1 h2 => by
    rw [hend q (List.mem_of_getElem? hq) b hb]
    exact h.inside i q hq b hb h1 h2
  front := fun q hq b hb => by
    have hmem := List.mem_of_getElem? hq
    rw [hend q hmem b (by omega), h.front q hq b hb]
    split_ifs with hmap
    · exact hold hmap b (by omega)
    · exact hbody q hmem b (by omega)
  back := by
    obtain ⟨M, hM, hback⟩ := h.back
    refine ⟨M, hm.trans (hM.mono hVW), fun q hq b hb hbehind => ?_⟩
    have hmem := List.mem_of_getElem? hq
    rw [hend q hmem b hb, hback q hq b hb hbehind, hbody q hmem b hb]

/-! ## The variables -/

/-- The variables fit a write that still has bytes to go. -/
structure WriteVars.Valid (v : WriteVars) : Prop where
  offset_lt : v.offset < 4096
  pos : 1 ≤ v.totalSize
  pageNums : v.pageNums = (v.totalSize + v.offset + 4095) / 4096
  aligned : v.startPage % 4096 = 0
  bound : v.startPage + v.offset + v.totalSize ≤ 2 ^ 64

/-- The variables fit a write that still has bytes to go, wherever it ends. The count of pages is
short only when the end of the write does not fit 64 bits, and is 1 then. -/
structure WriteVars.Sized (v : WriteVars) : Prop where
  offset_lt : v.offset < 4096
  pos : 1 ≤ v.totalSize
  pageNums : v.pageNums = (v.totalSize + v.offset + 4095) / 4096 ∨
    v.pageNums = 1 ∧ 0 < v.offset ∧ 4096 < v.totalSize + v.offset
  startPage_lt : v.startPage < 2 ^ 64

/-- The variables after a round. -/
def WriteVars.next (v : WriteVars) (userBuf logTail : Nat) : WriteVars :=
  let wrSize := chunkSize v v.allocNum
  let fileOff := addU64 v.fileOff wrSize
  { fileOff, logTail, userBuf
    fileSize := if fileOff > v.fileSize then fileOff else v.fileSize
    offset := 0
    pageNums := v.pageNums - v.allocNum
    startPage := addU64 v.startPage (v.allocNum * pageSize)
    totalSize := v.totalSize - wrSize }

section Vars

variable {v : WriteVars}

theorem WriteVars.allocNum_eq (v : WriteVars) : v.allocNum = min v.pageNums 64 := by
  rw [allocNum, show maxNumPagePerEntry = 64 from rfl]
  split_ifs <;> omega

/-- The size a round records fits its word. -/
theorem WriteVars.fileSize_next_lt (h : v.fileSize < 2 ^ 64) (userBuf logTail : Nat) :
    (v.next userBuf logTail).fileSize < 2 ^ 64 := by
  rw [WriteVars.next]
  split_ifs
  · exact addU64_lt _ _
  · exact h

namespace WriteVars.Sized

theorem allocNum_bounds (hv : v.Sized) : 1 ≤ v.allocNum ∧ v.allocNum ≤ 64 := by
  have := hv.pageNums
  have := hv.pos
  rw [v.allocNum_eq]
  omega

theorem chunk_bounds (hv : v.Sized) : 1 ≤ chunkSize v v.allocNum ∧
    4096 * (v.allocNum - 1) < v.offset + chunkSize v v.allocNum ∧
    v.offset + chunkSize v v.allocNum ≤ 4096 * v.allocNum := by
  have := hv.pageNums
  have := hv.pos
  have := hv.offset_lt
  rw [v.allocNum_eq, chunkSize_eq]
  omega

/-- The classification of the code is the one by the number of pages. -/
theorem chunkParts_eq (hv : v.Sized) : chunkParts v v.allocNum (chunkSize v v.allocNum) =
    partsOf v.allocNum v.offset (chunkSize v v.allocNum) := by
  have hn := v.allocNum_eq
  have hw := chunkSize_eq v v.allocNum
  have hpageNums := hv.pageNums
  have := hv.pos
  have := hv.offset_lt
  rw [partsOf]
  by_cases h : v.totalSize ≤ 4096 - v.offset
  · have h1 : v.allocNum = 1 := by omega
    rw [chunkParts_single h, if_pos h1, show chunkSize v v.allocNum = v.totalSize by omega, h1]
    rfl
  · rw [chunkParts_multi (by omega)]
    rcases hpageNums with hnums | ⟨hone, hin, -⟩
    · rw [if_neg (show ¬ v.allocNum = 1 by omega)]
    · -- the write does not fit, and its only page is filled up
      have h1 : v.allocNum = 1 := by omega
      have hsize : chunkSize v v.allocNum = 4096 - v.offset := by omega
      rw [if_pos h1, hsize, h1, if_pos (by omega), if_pos (by omega),
        show (4096 - v.offset + v.offset) % 4096 = 0 by omega, if_neg (by simp)]
      rfl

/-- The variables stay fit while there are pages to go. -/
theorem next (hv : v.Sized) (h : 64 < v.pageNums) (userBuf logTail : Nat) :
    (v.next userBuf logTail).Sized := by
  have hn := v.allocNum_eq
  have hw := chunkSize_eq v v.allocNum
  have := hv.pageNums
  have := hv.offset_lt
  have ht : (v.next userBuf logTail).totalSize = v.totalSize - chunkSize v v.allocNum := rfl
  have ho : (v.next userBuf logTail).offset = 0 := rfl
  have hp : (v.next userBuf logTail).pageNums = v.pageNums - v.allocNum := rfl
  refine ⟨?_, ?_, ?_, addU64_lt _ _⟩ <;> omega

end WriteVars.Sized

namespace WriteVars.Valid

theorem sized (hv : v.Valid) : v.Sized where
  offset_lt := hv.offset_lt
  pos := hv.pos
  pageNums := .inl hv.pageNums
  startPage_lt := by
    have := hv.bound
    have := hv.pos
    omega

theorem allocNum_bounds (hv : v.Valid) : 1 ≤ v.allocNum ∧ v.allocNum ≤ 64 :=
    hv.sized.allocNum_bounds

theorem chunk_bounds (hv : v.Valid) : 1 ≤ chunkSize v v.allocNum ∧
    4096 * (v.allocNum - 1) < v.offset + chunkSize v v.allocNum ∧
    v.offset + chunkSize v v.allocNum ≤ 4096 * v.allocNum := hv.sized.chunk_bounds

theorem chunkParts_eq (hv : v.Valid) : chunkParts v v.allocNum (chunkSize v v.allocNum) =
    partsOf v.allocNum v.offset (chunkSize v v.allocNum) := hv.sized.chunkParts_eq

/-- The last chunk takes all the bytes that are left. -/
theorem chunkSize_last (hv : v.Valid) (h : v.pageNums ≤ 64) :
    chunkSize v v.allocNum = v.totalSize := by
  have := hv.pageNums
  have := hv.offset_lt
  rw [chunkSize_eq, v.allocNum_eq]
  omega

/-- Any other chunk fills its 64 pages. -/
theorem chunkSize_full (hv : v.Valid) (h : 64 < v.pageNums) :
    v.offset + chunkSize v v.allocNum = 4096 * 64 ∧ chunkSize v v.allocNum < v.totalSize := by
  have := hv.pageNums
  have := hv.offset_lt
  rw [chunkSize_eq, v.allocNum_eq]
  omega

theorem startPage_bound (hv : v.Valid) : v.startPage + 4096 * v.pageNums ≤ 2 ^ 64 := by
  have := hv.pageNums
  have := hv.aligned
  have := hv.bound
  omega

theorem next_startPage (hv : v.Valid) (h : 64 < v.pageNums) (userBuf logTail : Nat) :
    (v.next userBuf logTail).startPage = v.startPage + 4096 * 64 := by
  have := hv.startPage_bound
  have hn : v.allocNum = 64 := by
    rw [v.allocNum_eq]
    omega
  have := addU64_of_lt (a := v.startPage) (b := 64 * 4096) (by omega)
  rw [WriteVars.next, hn, pageSize_eq]
  omega

/-- The variables stay fit while there are pages to go. -/
theorem next (hv : v.Valid) (h : 64 < v.pageNums) (userBuf logTail : Nat) :
    (v.next userBuf logTail).Valid := by
  have hfull := hv.chunkSize_full h
  have hstart := hv.next_startPage h userBuf logTail
  have hn := v.allocNum_eq
  have := hv.pageNums
  have := hv.aligned
  have := hv.bound
  have ht : (v.next userBuf logTail).totalSize = v.totalSize - chunkSize v v.allocNum := rfl
  have ho : (v.next userBuf logTail).offset = 0 := rfl
  have hp : (v.next userBuf logTail).pageNums = v.pageNums - v.allocNum := rfl
  constructor <;> omega

end WriteVars.Valid

end Vars

/-! ## Filling the edges -/

section Fill

variable {buf : Memory} {e o w u p : Nat} {l : List Nat} {m : Memory} {c : Cursor}
  {index : Nat → Nat} {start : Nat}

theorem partsOf_first (ho : o < 4096) (hw : 1 ≤ w) (h : 0 < o) (n : Nat) :
    (partsOf n o w).1 ≠ 0 := by
  rw [partsOf]
  split_ifs <;> simp only <;> omega

theorem partsOf_last (n : Nat) : (partsOf n o w).2.2 = if n = 1 then 0 else (w + o) % 4096 := by
  rw [partsOf]
  split_ifs <;> rfl

theorem bodyBytes_subset_dataBytes {q : Nat} (hq : q ∈ l) : bodyBytes q ⊆ dataBytes l :=
  fun _ ha => ⟨q, hq, .inl ha⟩

theorem changesOnly_fillFirstPage (ho : o < 4096) (m : Memory) (q part k : Nat) :
    ChangesOnly (bodyBytes q) m (fillFirstPage m q part o k) := by
  rw [fillFirstPage]
  split_ifs
  · refine (changesOnly_copy m m q part o).mono fun a ha => ?_
    rw [Set.mem_Ico] at ha
    rw [mem_bodyBytes]
    omega
  · exact ChangesOnly.refl _ _

theorem changesOnly_fillLastPage {k : Nat} (hk : k < 4096) (m : Memory) (q part : Nat) :
    ChangesOnly (bodyBytes q) m (fillLastPage m q part k) := by
  rw [fillLastPage]
  split_ifs
  · refine (changesOnly_copy m m _ _ _).mono fun a ha => ?_
    rw [pageSize_eq, Set.mem_Ico] at ha
    rw [mem_bodyBytes]
    omega
  · exact ChangesOnly.refl _ _

/-- Filling the edges, from whatever pages, leaves the entry that the pages name. -/
theorem Copied.fillEdges (h : Copied buf e o w u l m l.length c) (hl : PageChain m p l)
    (hpos : 1 ≤ l.length) (ho : o < 4096) {last : Nat} (hlast : last < 4096)
    (first part part' : Nat) :
    ChangesOnly (dataBytes l) m
        (fillLastPage (fillFirstPage c.mem p part o first) c.pageAddr part' last) ∧
      ∀ q ∈ l, ListNode.logEntry.get
        (fillLastPage (fillFirstPage c.mem p part o first) c.pageAddr part' last)
          (q + 4096) = e := by
  have hfirst := changesOnly_fillFirstPage ho c.mem p part first
  have hend := changesOnly_fillLastPage hlast (fillFirstPage c.mem p part o first) c.pageAddr part'
  have hp : p ∈ l := hl.head_mem hpos
  have haddr : c.pageAddr ∈ l := List.mem_of_getElem? h.pageAddr
  refine ⟨h.frame.trans ((hfirst.mono (bodyBytes_subset_dataBytes hp)).trans
    (hend.mono (bodyBytes_subset_dataBytes haddr))), fun q hq => ?_⟩
  obtain ⟨i, hi, hqi⟩ := List.getElem_of_mem hq
  refine (Field.get_congr fun a ha => ?_).trans
    (h.logEntry i hi q (hqi ▸ List.getElem?_eq_getElem hi))
  simp only [Field.bytes, ListNode.logEntry_off, ListNode.logEntry_size, Set.mem_Ico] at ha
  have apart {r : Nat} (hr : r ∈ l) : a ∉ bodyBytes r := by
    rw [mem_bodyBytes]
    by_cases hqr : q = r
    · omega
    · have := (hl.page q hq).apart (hl.page r hr) hqr
      omega
  exact (hend a (apart haddr)).trans (hfirst a (apart hp))

/-- The memory after the edges of a chunk are filled. -/
def filled (index : Nat → Nat) (start n o w p : Nat) (c : Cursor) : Memory :=
  fillLastPage (fillFirstPage c.mem p (index start) o (partsOf n o w).1) c.pageAddr
    (index (start + 4096 * (n - 1))) (partsOf n o w).2.2

/-- Copying and filling write the chunk to its pages. -/
theorem Copied.filled (h : Copied buf e o w u l m l.length c) (hl : PageChain m p l)
    (hpos : 1 ≤ l.length) (hle : l.length ≤ 64) (ho : o < 4096) (hwpos : 1 ≤ w)
    (hw : 4096 * (l.length - 1) < o + w) (hw' : o + w ≤ 4096 * l.length)
    (hold : index start ≠ offsetNull → IsPage (index start) ∧ index start ∉ l) :
    Written buf index start o w u (dataBytes l) l m (Atfs.filled index start l.length o w p c) ∧
      ChangesOnly (dataBytes l) m (Atfs.filled index start l.length o w p c) ∧
      ∀ q ∈ l, ListNode.logEntry.get (Atfs.filled index start l.length o w p c) (q + 4096) = e := by
  have hpage : ∀ q ∈ l, IsPage q := hl.page
  have hparts : (partsOf l.length o w).2.2 < 4096 := by
    rw [partsOf_last]
    split_ifs <;> omega
  have hedges := h.fillEdges hl hpos ho hparts (partsOf l.length o w).1 (index start)
    (index (start + 4096 * (l.length - 1)))
  obtain ⟨p', rest, rfl⟩ : ∃ p' rest, l = p' :: rest := List.exists_cons_of_length_pos hpos
  obtain rfl : p = p' := hl.chain.head_eq
  generalize hlen : (p :: rest).length = n at *
  have hlast : (p :: rest)[n - 1]? = some c.pageAddr := by
    have := h.pageAddr
    rwa [hlen, min_eq_right (by omega)] at this
  have hlastmem : c.pageAddr ∈ p :: rest := List.mem_of_getElem? hlast
  -- the two fills and what they leave alone
  set m₃ := fillFirstPage c.mem p (index start) o (partsOf n o w).1 with hm₃
  have h₃ : ChangesOnly (dataBytes (p :: rest)) c.mem m₃ :=
    (changesOnly_fillFirstPage ho _ _ _ _).mono (bodyBytes_subset_dataBytes (by simp))
  have out₃ : ∀ a, (a < p ∨ p + o ≤ a) → m₃ a = c.mem a := by
    intro a ha
    rw [hm₃, fillFirstPage]
    split_ifs
    · exact copy_apply_of_outside _ _ ha
    · rfl
  have out₄ : ∀ a, ((partsOf n o w).2.2 = 0 ∨ a < c.pageAddr + (partsOf n o w).2.2 ∨
      c.pageAddr + 4096 ≤ a) → Atfs.filled index start n o w p c a = m₃ a := by
    intro a ha
    rw [Atfs.filled, ← hm₃, fillLastPage]
    split_ifs with hc
    · exact copy_apply_of_outside _ _ (by rw [pageSize_eq]; omega)
    · rfl
  have position : ∀ i q, (p :: rest)[i]? = some q → q = c.pageAddr → i = n - 1 := by
    rintro i q hq rfl
    have hi := (List.getElem?_eq_some_iff.1 hq).1
    exact (List.getElem?_inj hi hl.nodup).1 (hq.trans hlast.symm)
  have first : ∀ q, (p :: rest)[0]? = some q → q = p := by
    rintro q hq
    exact (Option.some.inj hq).symm
  refine ⟨⟨?_, ?_, ?_⟩, hedges⟩
  · intro i q hq b hb h1 h2
    have hi := (List.getElem?_eq_some_iff.1 hq).1
    have hqp := hpage q (List.mem_of_getElem? hq)
    rw [out₄, out₃]
    · exact h.inside i (by omega) q hq b hb h1 h2
    · by_cases hqp' : q = p
      · obtain rfl : i = 0 := by
          have h0 : (p :: rest)[0]? = some p := rfl
          exact (List.getElem?_inj hi hl.nodup).1 (hq.trans (hqp' ▸ h0.symm))
        omega
      · have := hqp.apart (hpage p (by simp)) hqp'
        omega
    · by_cases hqa : q = c.pageAddr
      · have hin := position i q hq hqa
        rw [partsOf_last]
        split_ifs <;> omega
      · have := hqp.apart (hpage _ hlastmem) hqa
        omega
  · intro q hq b hb
    obtain rfl := first q hq
    have hqp := hpage q (by simp)
    rw [out₄]
    · have out : c.mem (q + b) = m (q + b) := h.outside 0 q hq b (by omega) (by omega)
      rw [hm₃, fillFirstPage]
      by_cases hmap : index start = offsetNull
      · rw [if_neg (by simp [hmap]), if_neg (by simp [hmap]), out]
      · obtain ⟨hold, hnot⟩ := hold hmap
        rw [if_pos ⟨partsOf_first ho hwpos (by omega) n, hmap⟩, if_pos hmap,
          copy_apply_of_inside _ _ (by omega) (by omega), Nat.add_sub_cancel_left]
        refine h.frame _ ?_
        rintro ⟨r, hr, har⟩
        have := hold.apart (hpage r hr) (by rintro rfl; exact hnot hr)
        simp only [mem_bodyBytes, Set.mem_Ico] at har
        omega
    · by_cases hqa : q = c.pageAddr
      · have hin := position 0 q hq hqa
        rw [partsOf_last, if_pos (by omega)]
        exact .inl rfl
      · have := hqp.apart (hpage _ hlastmem) hqa
        omega
  · refine ⟨m₃, h.frame.trans h₃, ?_⟩
    intro q hq b hb hbehind
    rw [hlen] at hq hbehind ⊢
    obtain rfl : q = c.pageAddr := Option.some.inj (hq.symm.trans hlast)
    have hqp := hpage _ hlastmem
    have out : c.mem (c.pageAddr + b) = m (c.pageAddr + b) := h.outside _ _ hq b hb (by omega)
    have out' : m₃ (c.pageAddr + b) = c.mem (c.pageAddr + b) := by
      refine out₃ _ ?_
      by_cases hqp' : c.pageAddr = p
      · have : 0 = n - 1 := position 0 p rfl hqp'.symm
        omega
      · have := hqp.apart (hpage p (by simp)) hqp'
        omega
    have hmod : n % 64 ≠ 1 ↔ n ≠ 1 := by omega
    rw [Atfs.filled, ← hm₃, fillLastPage, partsOf_last]
    by_cases h1 : n = 1
    · rw [if_pos h1, if_neg (by simp), if_neg (by simp [h1]), out', out]
    · rw [if_neg h1, Nat.add_comm w o]
      by_cases hmap : index (start + 4096 * (n - 1)) = offsetNull
      · rw [if_neg (by simp [hmap]), if_neg (by simp [hmap]), out', out]
      · rw [if_pos ⟨by omega, hmap⟩, if_pos ⟨hmod.2 h1, hmap⟩, pageSize_eq,
          copy_apply_of_inside _ _ (by omega) (by omega)]
        congr 1
        rw [show sizeofListNode = 40 from rfl]
        omega

end Fill

/-! ## One round -/

/-- Every page of the index is a page in use that does not belong to the end of the log. -/
def Mapped (index : Nat → Nat) (f : Frontier) : Prop :=
  ∀ k, index k ≠ offsetNull → IsPage (index k) ∧ index k ∉ f.free ∧ index k ≠ f.page

/-- What one round leaves: the entry `E` with its pages, and the variables. -/
structure ChunkStep (A : PageAllocator) (buf : Memory) (index : Nat → Nat) (f f' : Frontier)
    (v v' : WriteVars) (m m' : Memory) (E : LogEntry) : Prop where
  step : LogStep A ∅ f f' [f.tail] m m'
  slot : nextSlot m' f.tail = E.off
  tail : f'.tail = E.off + 48
  place : f'.page = f.page ∧ E.off = f.tail ∨ f'.page ∈ f.free ∧ E.off = f'.page
  stored : E.Stored m'
  fresh : ∀ q ∈ E.pages, q ∈ f.free ∧ q ∉ f'.free ∧ q ≠ f'.page
  backPointer : ∀ q ∈ E.pages, ListNode.logEntry.get m' (q + 4096) = E.off
  written : Written buf index v.startPage v.offset (chunkSize v v.allocNum) v.userBuf
    (footprint f f') E.pages m m'
  length : E.pages.length = v.allocNum
  startWriteOff : E.startWriteOff = v.startPage
  endWriteOff : E.endWriteOff = addU64 v.startPage (chunkSize v v.allocNum)
  fileSize : E.fileSize = v'.fileSize
  valid : E.invalidPages = 0 ∧ E.bitmap = 0
  next : v' = v.next v'.userBuf f'.tail
  userBuf : 64 < v.pageNums → v'.userBuf = v.userBuf + chunkSize v v.allocNum

section Round

variable {A : PageAllocator} {buf : Memory} {inode : Nat} {f : Frontier} {v v' : WriteVars}
  {s s' : State}

/-- Copying and filling write nothing but the new pages. -/
theorem Obtained.filled {p e : Nat} {l : List Nat} {f' : Frontier} {index : Nat → Nat}
    (h : Obtained A f f' s s' p l e) (hv : v.Valid) (hmap : Mapped index f)
    (hlen : l.length = v.allocNum) {c : Cursor} {m : Memory}
    (hc : c = writePages buf e v.offset (partsOf v.allocNum v.offset (chunkSize v v.allocNum))
      ⟨s'.mem, p, v.userBuf⟩)
    (hm : m = filled index v.startPage v.allocNum v.offset (chunkSize v v.allocNum) p c) :
    Copied buf e v.offset (chunkSize v v.allocNum) v.userBuf l s'.mem l.length c ∧
      Written buf index v.startPage v.offset (chunkSize v v.allocNum) v.userBuf (dataBytes l) l
        s'.mem m ∧
      ChangesOnly (dataBytes l) s'.mem m ∧ ∀ q ∈ l, ListNode.logEntry.get m (q + 4096) = e := by
  have hn := hv.allocNum_bounds
  have hw := hv.chunk_bounds
  have hTb := h.step.holds.isPage.bounds
  have he := h.tail
  have htl := h.step.holds.tail_le
  rw [← hlen] at hc hm hw hn
  have copied := Copied.writePages buf v.userBuf h.chain hn.1 (e := e) (by omega)
    hv.offset_lt hw.1 hw.2.1 hw.2.2
  have hold : index v.startPage ≠ offsetNull →
      IsPage (index v.startPage) ∧ index v.startPage ∉ l := fun hne =>
    ⟨(hmap _ hne).1, fun hc => (hmap _ hne).2.1 (h.fresh _ hc).1⟩
  rw [← hlen]
  rw [← hc] at copied
  have hfill := copied.filled h.chain hn.1 hn.2 hv.offset_lt hw.1 hw.2.1 hw.2.2 hold
  rw [← hm] at hfill
  exact ⟨copied, hfill⟩

/-- Writing to the new pages extends the step. -/
theorem Obtained.writeData {p e : Nat} {l : List Nat} {f' : Frontier} {m : Memory}
    (h : Obtained A f f' s s' p l e) (hframe : ChangesOnly (dataBytes l) s'.mem m) :
    LogStep A ∅ f f' [f.tail] s.mem m := by
  refine h.step.write_inside hframe ?_ ?_
  · rintro a ⟨q, hq, ha⟩
    refine .inl (.inl (.inr ⟨q, ⟨(h.fresh q hq).1, (h.fresh q hq).2.1⟩, ?_⟩))
    simp only [mem_bodyBytes, Set.mem_Ico, mem_pageBytes] at *
    omega
  · rintro a ⟨q, hq, ha⟩
    refine ⟨q, h.chain.page q hq, (h.fresh q hq).2.1, ?_, ?_⟩
    · simp only [mem_bodyBytes, Set.mem_Ico, mem_pageBytes] at *
      omega
    · simp only [mem_bodyBytes, Set.mem_Ico, mem_linkBytes] at *
      omega

/-- Writing to the new pages and filling in the slot completes the step. -/
theorem Obtained.initEntry {p e : Nat} {l : List Nat} {f' : Frontier} {m m' : Memory}
    (h : Obtained A f f' s s' p l e) (hf : f.Holds A s.mem) (hpos : 1 ≤ l.length)
    (hle : l.length ≤ 64) (hframe : ChangesOnly (dataBytes l) s'.mem m) {fileSize start stop : Nat}
    (hsize : fileSize < 2 ^ 64) (hstart : start < 2 ^ 64) (hstop : stop < 2 ^ 64)
    (hm' : m' = initLogEntry m e (ListNode.offset.get m (p + 4096)) fileSize l.length start stop) :
    LogStep A ∅ f f' [f.tail] s.mem m' ∧ nextSlot m' f.tail = e ∧
      (∀ q ∈ l, Set.EqOn m' m (pageBytes q)) ∧
      LogEntry.Stored ⟨e, l, fileSize, start, stop, 0, 0⟩ m' := by
  have hpage : ∀ q ∈ l, IsPage q := h.chain.page
  have step₁ := h.writeData hframe
  have hchain : PageChain m p l := h.chain.congr fun q hq a ha => hframe a (by
    rw [Set.mem_Ico] at ha
    exact dataBytes_apart hpage (hpage q hq) (by omega) (by omega))
  rw [hchain.offset p (h.chain.head_mem hpos)] at hm'
  exact step₁.initEntry hf h.place h.tail hchain hpos hle (fun hc => (h.fresh _ hc).2.2 rfl) hsize
    hstart hstop hm'

/-- What the log records of an entry, whatever is written to its pages before it is filled in. -/
theorem Obtained.grown {p e n k pages fileSize start stop : Nat} {l : List Nat} {f' : Frontier}
    {s₁ : State} {m m' : Memory} (h : Obtained A f f' s s' p l e) (hf : f.Holds A s.mem)
    (hn : 1 ≤ n) (halloc : A.allocFreePages s n = .ok (p + 4096, s₁))
    (hentry : getLogEntry A s₁ f.tail = .ok (e, f'.tail, s'))
    (hframe : ChangesOnly (dataBytes l) s'.mem m)
    (hm' : m' = initLogEntry m e pages fileSize k start stop) :
    ∃ evs, Grown f.page f.tail e k s.mem m' evs ∧ Recorded evs s s' := by
  -- the log starts to grow when the data pages have been obtained
  obtain ⟨p₁, l₁, F₁, -, -, hall⟩ := PageAllocator.allocFreePages_spec hf.rep hn halloc
  have hf₁ := (hall.logStep hf ∅).holds
  have apart (q : Nat) (hq : IsPage q) (hql : q ∉ l) : Disjoint (dataBytes l) (pageBytes q) := by
    rw [Set.disjoint_left]
    rintro a ⟨r, hr, hb⟩ ha
    have := hq.apart (h.chain.page r hr) (by rintro rfl; exact hql hr)
    simp only [mem_bodyBytes, Set.mem_Ico, mem_pageBytes] at ha hb
    omega
  have hT : Disjoint (dataBytes l) (Set.Ico (f.page + 4096) (f.page + 4136)) :=
    (apart f.page hf.isPage fun hc => hf.notFree (h.fresh _ hc).1).mono_right fun a ha => by
      rw [Set.mem_Ico] at ha
      rw [mem_pageBytes]
      omega
  have hE (hfull : f.page + 4048 < f.tail) :
      Disjoint (dataBytes l) (Set.Ico (e + 4096) (e + 4128)) := by
    have := h.tail
    have := h.step.holds.tail_le
    obtain ⟨hp, rfl⟩ | ⟨-, rfl⟩ := h.place
    · omega
    · refine (apart _ h.step.holds.isPage fun hc => (h.fresh _ hc).2.2 rfl).mono_right
        fun a ha => ?_
      rw [Set.mem_Ico] at ha
      rw [mem_pageBytes]
      omega
  obtain ⟨evs, hgrown, hrec⟩ := grown_of_getLogEntry hf₁ hentry hframe hT hE hm'
  refine ⟨evs, hgrown.congr_left (hall.keeps hf.rep hf.isPage hf.notFree), ?_⟩
  have halloc : Recorded [] s s₁ := ⟨[.alloc (p₁ + 4096) l₁.length], hall.trace, rfl⟩
  exact List.append_nil evs ▸ halloc.trans hrec

/-- The entry for the pages obtained, whatever is written to them before it is filled in. -/
theorem Obtained.entryStep {p e fileSize start stop : Nat} {l : List Nat} {f' : Frontier}
    {s₁ : State} {m m' : Memory} (h : Obtained A f f' s s' p l e) (hf : f.Holds A s.mem)
    (hpos : 1 ≤ l.length) (hle : l.length ≤ 64)
    (halloc : A.allocFreePages s l.length = .ok (p + 4096, s₁))
    (hentry : getLogEntry A s₁ f.tail = .ok (e, f'.tail, s'))
    (hframe : ChangesOnly (dataBytes l) s'.mem m) (hsize : fileSize < 2 ^ 64)
    (hstart : start < 2 ^ 64) (hstop : stop < 2 ^ 64)
    (hm' : m' = initLogEntry m e (ListNode.offset.get m (p + 4096)) fileSize l.length start stop) :
    ∃ evs, EntryStep A f f' s.mem m' ⟨e, l, fileSize, start, stop, 0, 0⟩ evs ∧ Recorded evs s s' ∧
      (∀ q ∈ l, Set.EqOn m' m (pageBytes q)) ∧
      ∀ n, A.Lasts (n + pagesOpened evs + l.length) s.mem → A.Lasts n m' := by
  obtain ⟨step, hslot, hkeep, hstored⟩ := h.initEntry hf hpos hle hframe hsize hstart hstop hm'
  obtain ⟨evs, hgrown, hrec⟩ := h.grown hf hpos halloc hentry hframe hm'
  refine ⟨evs, ⟨step, hslot, h.tail, h.place, hstored, ⟨rfl, rfl⟩,
    fun q hq => (h.fresh q hq).2, hgrown⟩, hrec, hkeep, fun n hlast => ?_⟩
  -- both requests are served, and what is written then lies in pages in use
  obtain ⟨p₁, l₁, F₁, -, -, hall⟩ := PageAllocator.allocFreePages_spec hf.rep hpos halloc
  have hopened := hgrown.pagesOpened
  have hlast₂ : A.Lasts n s'.mem := getLogEntry_lasts (hall.logStep hf ∅).holds hentry
    (fun hfull => by rw [hopened, if_pos hfull]) (hlast.allocFreePages hf.rep hpos hle halloc)
  have hlast₃ : A.Lasts n m := by
    refine hlast₂.congr h.step.holds.rep (eqOn_of_inUse (A.rep_page h.step.holds.rep) hframe ?_)
    rintro a ⟨q, hq, ha⟩
    refine ⟨q, h.chain.page q hq, (h.fresh q hq).2.1, ?_⟩
    rw [mem_pageBytes]
    simp only [mem_bodyBytes, Set.mem_Ico] at ha
    omega
  have hf' := (h.writeData hframe).holds
  have htail := h.tail
  have he : f'.page ≤ e := by
    have := hf.le_tail
    rcases h.place with ⟨hp, he⟩ | ⟨-, he⟩ <;> omega
  have hroom := hf'.tail_le
  refine hlast₃.congr hf'.rep (eqOn_of_inUse (A.rep_page hf'.rep)
    (hm' ▸ changesOnly_initLogEntry hf'.isPage he (by omega) m) fun a ha =>
      ⟨f'.page, hf'.isPage, hf'.notFree, ?_⟩)
  rw [mem_entryBytes] at ha
  rw [mem_pageBytes]
  omega

/-- The round writes its pages and its entry. -/
theorem Obtained.chunkStep {p e : Nat} {l : List Nat} {f' : Frontier} {index : Nat → Nat}
    (h : Obtained A f f' s s' p l e) (hf : f.Holds A s.mem) (hv : v.Valid)
    (hmap : Mapped index f) (hlen : l.length = v.allocNum) {c : Cursor} {m : Memory}
    (hc : c = writePages buf e v.offset (partsOf v.allocNum v.offset (chunkSize v v.allocNum))
      ⟨s'.mem, p, v.userBuf⟩)
    (hm : m = Atfs.filled index v.startPage v.allocNum v.offset (chunkSize v v.allocNum) p c)
    (hv' : v' = v.next c.userBuf f'.tail) (hsize : v'.fileSize < 2 ^ 64) :
    ∃ E, E.off = e ∧ E.pages = l ∧ ChunkStep A buf index f f' v v' s.mem (initLogEntry m e
      (ListNode.offset.get m (p + 4096)) v'.fileSize v.allocNum v.startPage
      (addU64 v.startPage (chunkSize v v.allocNum))) E := by
  have hn := hv.allocNum_bounds
  have hstart := hv.startPage_bound
  have hnum := v.allocNum_eq
  -- copy and fill
  obtain ⟨copied, hwritten, hframe, hback⟩ := h.filled hv hmap hlen hc hm
  have hdata : dataBytes l ⊆ footprint f f' := by
    rintro a ⟨q, hq, ha⟩
    refine .inl (.inr ⟨q, ⟨(h.fresh q hq).1, (h.fresh q hq).2.1⟩, ?_⟩)
    simp only [mem_bodyBytes, Set.mem_Ico, mem_pageBytes] at *
    omega
  -- write the entry
  generalize hm' : initLogEntry m e (ListNode.offset.get m (p + 4096)) v'.fileSize v.allocNum
    v.startPage (addU64 v.startPage (chunkSize v v.allocNum)) = m'
  rw [← hlen] at hm'
  obtain ⟨step₂, hslot, hkeep, hstored⟩ := h.initEntry hf (by omega)
    (by omega) hframe hsize (by omega)
    (addU64_lt _ _) hm'.symm
  refine ⟨_, rfl, rfl, step₂, hslot, h.tail, h.place, hstored, h.fresh, ?_, ?_, hlen, rfl, ?_, rfl,
    ⟨rfl, rfl⟩, ?_, ?_⟩
  · intro q hq
    refine (Field.get_congr fun a ha => hkeep q hq ?_).trans (hback q hq)
    simp only [Field.bytes, ListNode.logEntry_off, ListNode.logEntry_size, Set.mem_Ico] at ha
    rw [mem_pageBytes]
    omega
  · refine hwritten.congr hv.offset_lt.le hdata ?_ ?_ ?_ ?_
    · exact h.step.frame.mono (by rw [Set.union_empty])
    · intro q hq b hb
      exact h.body q hq _ (by rw [mem_pageBytes]; omega) (by rw [mem_linkBytes]; omega)
    · intro hne b hb
      obtain ⟨hp, hpF, hpT⟩ := hmap _ hne
      exact h.step.keeps hf hp hpF hpT (by rw [mem_pageBytes]; omega) (Set.notMem_empty _)
    · intro q hq b hb
      exact hkeep q hq (by rw [mem_pageBytes]; omega)
  · rw [← hlen]
  · rw [hv']
    rfl
  · intro hmore
    have hfull := hv.chunkSize_full hmore
    have huser := copied.userBuf (.inr (by omega))
    rw [if_neg (by omega)] at huser
    rw [hv', WriteVars.next]
    simp only
    omega

/-- A round obtains its pages and a slot for their entry, and writes both. -/
theorem writeChunk_obtained (hf : f.Holds A s.mem) (htail : v.logTail = f.tail) (hv : v.Valid)
    (hmap : Mapped (s.index inode) f) (hsize : v.fileSize < 2 ^ 64)
    (h : writeChunk A inode buf v s = .ok (v', s')) :
    ∃ f' E p s₁ s₂, A.allocFreePages s v.allocNum = .ok (p + 4096, s₁) ∧
      getLogEntry A s₁ v.logTail = .ok (E.off, f'.tail, s₂) ∧
      Obtained A f f' s s₂ p E.pages E.off ∧
      ChunkStep A buf (s.index inode) f f' v v' s.mem s'.mem E ∧ s'.index = s.index := by
  have hn := hv.allocNum_bounds
  rw [writeChunk] at h
  obtain ⟨⟨node, s₁⟩, halloc, h⟩ := bind_eq_ok.1 h
  obtain ⟨⟨e, tail', s₂⟩, hentry, h⟩ := bind_eq_ok.1 h
  have hentry' := hentry
  simp only [htail] at hentry
  obtain ⟨f', p, l, rfl, rfl, hlen, hob⟩ := obtained_of_allocFreePages hf hn.1 halloc hentry
  have hp : IsPage p := hob.chain.page p (hob.chain.head_mem (by omega))
  have hkey : addU64 v.startPage ((v.allocNum - 1) * pageSize) =
      v.startPage + 4096 * (v.allocNum - 1) := by
    have := hv.startPage_bound
    have := v.allocNum_eq
    rw [pageSize_eq, addU64_of_lt (by omega)]
    omega
  simp only [hp.getNvmNode2pageAddr_eq, hv.chunkParts_eq, hkey, hob.index, Except.ok.injEq,
    Prod.mk.injEq] at h
  obtain ⟨rfl, rfl⟩ := h
  have hsize' := v.fileSize_next_lt hsize (writePages buf e v.offset (partsOf v.allocNum v.offset
    (chunkSize v v.allocNum)) ⟨s₂.mem, p, v.userBuf⟩).userBuf f'.tail
  obtain ⟨E, rfl, rfl, hstep⟩ := hob.chunkStep hf hv hmap hlen rfl rfl rfl hsize'
  exact ⟨f', E, p, s₁, s₂, halloc, hentry', hob, hstep, rfl⟩

/-- A round appends one entry to the log, and the node of each of its pages names the entry. -/
theorem writeChunk_entry (hf : f.Holds A s.mem) (htail : v.logTail = f.tail) (hv : v.Sized)
    (hsize : v.fileSize < 2 ^ 64) (h : writeChunk A inode buf v s = .ok (v', s')) :
    ∃ f' E evs, EntryStep A f f' s.mem s'.mem E evs ∧ Recorded evs s s' ∧
      (∀ q ∈ E.pages, q ∈ f.free ∧ ListNode.logEntry.get s'.mem (q + 4096) = E.off) ∧
      E.pages.length = v.allocNum ∧ E.fileSize = v'.fileSize ∧ v' = v.next v'.userBuf f'.tail ∧
      s'.index = s.index ∧ ∀ n, A.Lasts (n + pagesOpened evs + v.allocNum) s.mem →
      A.Lasts n s'.mem := by
  have hn := hv.allocNum_bounds
  obtain ⟨hpos, hlt, hle⟩ := hv.chunk_bounds
  rw [writeChunk] at h
  obtain ⟨⟨node, s₁⟩, halloc, h⟩ := bind_eq_ok.1 h
  obtain ⟨⟨e, tail', s₂⟩, hentry, h⟩ := bind_eq_ok.1 h
  simp only [htail] at hentry
  obtain ⟨f', p, l, rfl, rfl, hlen, hob⟩ := obtained_of_allocFreePages hf hn.1 halloc hentry
  have hp : IsPage p := hob.chain.page p (hob.chain.head_mem (by omega))
  simp only [hp.getNvmNode2pageAddr_eq, hv.chunkParts_eq, Except.ok.injEq, Prod.mk.injEq] at h
  obtain ⟨rfl, rfl⟩ := h
  have hTb := hob.step.holds.isPage.bounds
  have htl := hob.step.holds.tail_le
  have he := hob.tail
  have copied : Copied buf e v.offset (chunkSize v v.allocNum) v.userBuf l s₂.mem l.length
      (writePages buf e v.offset (partsOf v.allocNum v.offset (chunkSize v v.allocNum))
        ⟨s₂.mem, p, v.userBuf⟩) := by
    rw [← hlen] at hlt hle hpos ⊢
    exact Copied.writePages buf v.userBuf hob.chain (by omega) (by omega) hv.offset_lt hpos hlt hle
  have hlast : (partsOf v.allocNum v.offset (chunkSize v v.allocNum)).2.2 < 4096 := by
    rw [partsOf_last]
    split_ifs <;> omega
  obtain ⟨hframe, hback⟩ := copied.fillEdges hob.chain (by omega) hv.offset_lt hlast
    (partsOf v.allocNum v.offset (chunkSize v v.allocNum)).1 (s₂.index inode v.startPage)
    (s₂.index inode (addU64 v.startPage ((v.allocNum - 1) * pageSize)))
  have hsize' := v.fileSize_next_lt hsize (writePages buf e v.offset (partsOf v.allocNum v.offset
    (chunkSize v v.allocNum)) ⟨s₂.mem, p, v.userBuf⟩).userBuf f'.tail
  obtain ⟨evs, hE, hrec, hkeep, hlasts⟩ := hob.entryStep hf (by omega) (by omega)
    (hlen.symm ▸ halloc) hentry hframe
    hsize' hv.startPage_lt (addU64_lt v.startPage (chunkSize v v.allocNum)) rfl
  rw [hlen] at hE hkeep hlasts
  refine ⟨f', _, evs, hE, hrec, fun q hq => ⟨(hob.fresh q hq).1, ?_⟩, hlen, rfl, rfl,
    hob.index, hlasts⟩
  refine (Field.get_congr fun a ha => hkeep q hq ?_).trans (hback q hq)
  simp only [Field.bytes, ListNode.logEntry_off, ListNode.logEntry_size, Set.mem_Ico] at ha
  rw [mem_pageBytes]
  omega

/-- A round appends its entry to the log. -/
theorem ChunkStep.entryStep {index : Nat → Nat} {f' : Frontier} {m m' : Memory} {E : LogEntry}
    {e : Nat} {evs : List Event} (h : ChunkStep A buf index f f' v v' m m' E) (hf : f.Holds A m)
    (hg : Grown f.page f.tail e v.allocNum m m' evs) : EntryStep A f f' m m' E evs where
  step := h.step
  slot := h.slot
  tail := h.tail
  place := h.place
  stored := h.stored
  valid := h.valid
  inUse := fun q hq => (h.fresh q hq).2
  grown := by
    obtain rfl : E.off = e := h.slot.symm.trans (hg.slot hf.isPage hf.le_tail hf.tail_le)
    rw [h.length]
    exact hg

end Round

end Atfs
