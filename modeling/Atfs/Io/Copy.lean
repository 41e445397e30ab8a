import Atfs.Io.Basic

/-!
# Copying one chunk

The pages of a chunk form one stream of bytes of which the write covers `o` to
`o + w`. However the code splits it into a first, middle and last part, it visits
every page of the chain once and copies the covered bytes of each.
-/

namespace Atfs

open ByteMemory LinkedChain

/-! ## Sizes and parts -/

section Parts

variable {v : WriteVars} {n : Nat}

theorem chunkSize_eq (v : WriteVars) (n : Nat) :
    chunkSize v n = min v.totalSize (4096 * n - v.offset) := by
  rw [chunkSize, pageSize_eq]
  split_ifs with h
  · exact (min_eq_left h.le).symm
  · exact (min_eq_right (not_lt.1 h)).symm

theorem chunkParts_single (h : v.totalSize ≤ 4096 - v.offset) (n w : Nat) :
    chunkParts v n w = (v.totalSize, (n : Int) - 1, 0) := by
  rw [chunkParts, pageSize_eq, if_pos h]

theorem chunkParts_multi (h : 4096 - v.offset < v.totalSize) (n w : Nat) :
    chunkParts v n w = (if v.offset ≠ 0 then 4096 - v.offset else 0,
      (n : Int) - (if v.offset ≠ 0 then 1 else 0) - (if (w + v.offset) % 4096 ≠ 0 then 1 else 0),
      (w + v.offset) % 4096) := by
  rw [chunkParts, pageSize_eq, if_neg (not_le.2 h), and_pageOffsetMask]
  generalize (w + v.offset) % 4096 = last
  by_cases ho : v.offset = 0 <;> by_cases hw : last = 0 <;> simp [ho, hw]

end Parts

/-! ## One page after the other -/

/-- The bytes that copying into the pages `l` may write. -/
def dataBytes (l : List Nat) : Set Nat :=
  {a | ∃ q ∈ l, a ∈ bodyBytes q ∨ a ∈ Set.Ico (q + 4128) (q + 4136)}

/-- The first `k` pages of the chunk are copied. The chunk covers the bytes from `o` to
`o + w` of the stream of its pages, which the user has from `u` on. -/
structure Copied (buf : Memory) (e o w u : Nat) (l : List Nat) (m : Memory) (k : Nat)
    (c : Cursor) : Prop where
  pageAddr : l[min k (l.length - 1)]? = some c.pageAddr
  userBuf : k < l.length ∨ o + w = 4096 * l.length →
    c.userBuf + o = u + 4096 * k + (if k = 0 then o else 0)
  inside : ∀ i < k, ∀ q, l[i]? = some q → ∀ b < 4096, o ≤ 4096 * i + b → 4096 * i + b < o + w →
    c.mem (q + b) = buf (u + (4096 * i + b - o))
  outside : ∀ i q, l[i]? = some q → ∀ b < 4096,
    (k ≤ i ∨ 4096 * i + b < o ∨ o + w ≤ 4096 * i + b) → c.mem (q + b) = m (q + b)
  logEntry : ∀ i < k, ∀ q, l[i]? = some q → ListNode.logEntry.get c.mem (q + 4096) = e
  frame : ChangesOnly (dataBytes l) m c.mem

section Copying

variable {buf : Memory} {e o w u p k : Nat} {l : List Nat} {m : Memory} {c : Cursor}

theorem dataBytes_apart {q : Nat} (hl : ∀ q ∈ l, IsPage q) (hq : IsPage q) {a : Nat}
    (ha : q + 4096 ≤ a) (ha' : a < q + 4128) : a ∉ dataBytes l := by
  rintro ⟨r, hr, hb | hb⟩
  all_goals
    by_cases hqr : q = r
    · subst hqr
      simp only [mem_bodyBytes, Set.mem_Ico] at hb
      omega
    · have := hq.apart (hl r hr) hqr
      simp only [mem_bodyBytes, Set.mem_Ico] at hb
      omega

theorem Copied.start (hl : PageChain m p l) (hpos : 1 ≤ l.length) :
    Copied buf e o w u l m 0 ⟨m, p, u⟩ where
  pageAddr := by
    obtain ⟨q, l⟩ := l
    · simp at hpos
    · simp [hl.chain.head_eq]
  userBuf := fun _ => by simp
  inside := by simp
  outside := fun _ _ _ _ _ _ => rfl
  logEntry := by simp
  frame := ChangesOnly.refl _ _

/-- Writing a page copies its covered bytes and moves on. -/
theorem Copied.writePage (h : Copied buf e o w u l m k c) (hl : PageChain m p l) (he : e < 2 ^ 64)
    (ho : o < 4096) (hk : k < l.length) (hw : 4096 * (l.length - 1) < o + w)
    (offset size step : Nat) (hoffset : offset = if k = 0 then o else 0)
    (hsize : 4096 * k + offset + size = min (4096 * (k + 1)) (o + w))
    (hstep : k + 1 < l.length ∨ o + w = 4096 * l.length → offset + step = 4096) :
    Copied buf e o w u l m (k + 1) (writePage buf e offset size step c) := by
  obtain ⟨q, hq⟩ : ∃ q, l[k]? = some q := ⟨_, List.getElem?_eq_getElem hk⟩
  obtain ⟨hk', hqk⟩ := List.getElem?_eq_some_iff.1 hq
  have hpage : ∀ q ∈ l, IsPage q := hl.page
  have hmem : ∀ i r, l[i]? = some r → r ∈ l := fun i r hr => List.mem_of_getElem? hr
  have hqp : IsPage q := hpage q (hmem k q hq)
  have haddr : c.pageAddr = q := by
    have := h.pageAddr
    rw [min_eq_left (by omega), hq] at this
    exact (Option.some.inj this).symm
  have huser : c.userBuf = u + (4096 * k + offset - o) := by
    have := h.userBuf (.inl hk)
    split_ifs at this hoffset with h0
    · subst h0
      omega
    · omega
  have hfit : offset + size ≤ 4096 := by omega
  -- distinct positions of the chain are distinct pages
  have hother : ∀ i r, l[i]? = some r → i ≠ k → r ≠ q := by
    rintro i r hr hik rfl
    exact hik ((List.getElem?_inj hk hl.nodup).1 (hq.trans hr.symm)).symm
  have hout : ∀ a, (a < q + offset ∨ q + offset + size ≤ a) → (a < q + 4128 ∨ q + 4136 ≤ a) →
      (Atfs.writePage buf e offset size step c).mem a = c.mem a := by
    intro a h1 h2
    rw [Atfs.writePage, haddr]
    refine (copy_apply_of_outside _ _ h1).trans (Field.set_apply_of_outside _ _ ?_)
    rw [hqp.getNvmPage2nodeAddr_eq, ListNode.logEntry_off, ListNode.logEntry_size]
    omega
  have hin : ∀ b, offset ≤ b → b < offset + size →
      (Atfs.writePage buf e offset size step c).mem (q + b) = buf (u + (4096 * k + b - o)) := by
    intro b h1 h2
    rw [Atfs.writePage, haddr]
    refine (copy_apply_of_inside _ _ (by omega) (by omega)).trans ?_
    congr 1
    split_ifs at hoffset <;> omega
  have hframe : ChangesOnly (dataBytes l) m (Atfs.writePage buf e offset size step c).mem := by
    intro a ha
    refine (hout a ?_ ?_).trans (h.frame a ha)
    · by_contra hc
      exact ha ⟨q, hmem k q hq, .inl (by rw [mem_bodyBytes]; omega)⟩
    · by_contra hc
      exact ha ⟨q, hmem k q hq, .inr (by rw [Set.mem_Ico]; omega)⟩
  have hlink : ListNode.nextOffset.get
      (Atfs.writePage buf e offset size step c).mem (q + 4096) = pageLink m q := by
    rw [hqp.pageLink_eq]
    refine Field.get_congr fun a ha => hframe a ?_
    simp only [Field.bytes, ListNode.nextOffset_off, ListNode.nextOffset_size, Set.mem_Ico] at ha
    exact dataBytes_apart hpage hqp (by omega) (by omega)
  refine ⟨?_, ?_, ?_, ?_, ?_, hframe⟩
  · have hnext : (Atfs.writePage buf e offset size step c).pageAddr =
        if pageLink m q ≠ offsetNull then pageLink m q else q := by
      rw [← hlink, Atfs.writePage, haddr, hqp.getNvmPage2nodeAddr_eq]
    rw [hnext, ← hqk]
    by_cases hlast : k + 1 < l.length
    · rw [hl.chain.link hlast, if_pos (hpage _ (List.getElem_mem _)).ne_offsetNull,
        min_eq_left (by omega)]
      exact List.getElem?_eq_getElem hlast
    · rw [hl.chain.link_last hk (by omega), if_neg (by simp), min_eq_right (by omega),
        show l.length - 1 = k by omega]
      exact List.getElem?_eq_getElem hk
  · intro hrest
    have := hstep hrest
    have hu : (Atfs.writePage buf e offset size step c).userBuf = c.userBuf + step := rfl
    rw [hu, huser, if_neg (by omega)]
    split_ifs at hoffset <;> omega
  · intro i hi r hr b hb h1 h2
    by_cases hik : i = k
    · subst hik
      obtain rfl : q = r := by rw [hq] at hr; exact Option.some.inj hr
      refine hin b ?_ (by omega)
      split_ifs at hoffset with h0
      · subst h0
        omega
      · omega
    · have := hqp.apart (hpage r (hmem i r hr)) (hother i r hr hik).symm
      rw [hout _ (by omega) (by omega)]
      exact h.inside i (by omega) r hr b hb h1 h2
  · intro i r hr b hb hcase
    by_cases hik : i = k
    · subst hik
      obtain rfl : q = r := by rw [hq] at hr; exact Option.some.inj hr
      rw [hout _ ?_ (by omega)]
      · exact h.outside i q hr b hb (.inl le_rfl)
      · split_ifs at hoffset with h0
        · subst h0
          omega
        · omega
    · have := hqp.apart (hpage r (hmem i r hr)) (hother i r hr hik).symm
      rw [hout _ (by omega) (by omega)]
      exact h.outside i r hr b hb (by omega)
  · intro i hi r hr
    by_cases hik : i = k
    · subst hik
      obtain rfl : q = r := by rw [hq] at hr; exact Option.some.inj hr
      rw [Atfs.writePage, haddr, hqp.getNvmPage2nodeAddr_eq]
      refine (Field.get_copy_of_disjoint (.inr ?_)).trans
        (Field.get_set_self_of_lt _ _ (by simpa using he))
      rw [ListNode.logEntry_off]
      omega
    · have := hqp.apart (hpage r (hmem i r hr)) (hother i r hr hik).symm
      refine (Field.get_congr fun a ha => ?_).trans (h.logEntry i (by omega) r hr)
      simp only [Field.bytes, ListNode.logEntry_off, ListNode.logEntry_size, Set.mem_Ico] at ha
      exact hout a (by omega) (by omega)

/-- The loop over the middle pages copies whole pages. -/
theorem Copied.writeMiddle (h : Copied buf e o w u l m k c) (hl : PageChain m p l) (he : e < 2 ^ 64)
    (ho : o < 4096) (hw : 4096 * (l.length - 1) < o + w) (h0 : k = 0 → o = 0) {j : Nat}
    (hj : k + j ≤ l.length) (hfull : 4096 * (k + j) ≤ o + w) :
    Copied buf e o w u l m (k + j) ((Atfs.writePage buf e 0 pageSize pageSize)^[j] c) := by
  induction j with
  | zero => exact h
  | succ j ih =>
    rw [Function.iterate_succ_apply']
    refine (ih (by omega) (by omega)).writePage hl he ho (by omega) hw _ _ _ ?_ ?_ ?_
    · split_ifs with hk
      · exact (h0 (by omega)).symm
      · rfl
    · rw [pageSize_eq, min_eq_left (by omega)]
      omega
    · exact fun _ => rfl

variable (buf u) in
/-- The first page is only copied on its own when the chunk starts inside it. -/
theorem Copied.writeFirst (hl : PageChain m p l) (h2 : 2 ≤ l.length) (he : e < 2 ^ 64)
    (ho : o < 4096) (hw : 4096 * (l.length - 1) < o + w) {first : Nat}
    (hfirst : first = if o ≠ 0 then 4096 - o else 0) :
    Copied buf e o w u l m (if o ≠ 0 then 1 else 0)
      (if first ≠ 0 then Atfs.writePage buf e o first (pageSize - o) ⟨m, p, u⟩ else ⟨m, p, u⟩) := by
  have start : Copied buf e o w u l m 0 ⟨m, p, u⟩ := Copied.start hl (by omega)
  by_cases h0 : o = 0
  · rw [if_neg (by simpa using h0), if_neg (by simp [hfirst, h0])]
    exact start
  · rw [if_pos h0] at hfirst
    rw [if_pos h0, if_pos (by omega)]
    refine start.writePage hl he ho (by omega) hw _ _ _ (by simp) ?_ ?_
    · rw [hfirst, min_eq_left (by omega)]
      omega
    · intro _
      rw [pageSize_eq]
      omega

/-- Nor is the last page, unless the chunk ends inside it. -/
theorem Copied.writeLast (h : Copied buf e o w u l m k c) (hl : PageChain m p l) (he : e < 2 ^ 64)
    (ho : o < 4096) (hw : 4096 * (l.length - 1) < o + w) (hw' : o + w ≤ 4096 * l.length)
    (h2 : 2 ≤ l.length) {last : Nat} (hlast : last = (w + o) % 4096)
    (hk : k + (if last ≠ 0 then 1 else 0) = l.length) :
    Copied buf e o w u l m l.length
      (if last ≠ 0 then Atfs.writePage buf e 0 last last c else c) := by
  by_cases h0 : last = 0
  · rw [if_neg (by simpa using h0)] at hk ⊢
    rwa [← hk]
  · rw [if_pos h0] at hk ⊢
    rw [← hk]
    refine h.writePage hl he ho (by omega) hw _ _ _ (by rw [if_neg (by omega)]) ?_ ?_
    · rw [min_eq_right (by omega)]
      omega
    · omega

/-- `first_page_wr`, `mid_num` and `last_page_wr` of a chunk of `n` pages that covers the
bytes from `o` to `o + w`. -/
def partsOf (n o w : Nat) : Nat × Int × Nat :=
  if n = 1 then (w, 0, 0)
  else (if o ≠ 0 then 4096 - o else 0,
    (n : Int) - (if o ≠ 0 then 1 else 0) - (if (w + o) % 4096 ≠ 0 then 1 else 0), (w + o) % 4096)

variable (buf u) in
/-- Copying the parts copies every page of the chunk once. -/
theorem Copied.writePages (hl : PageChain m p l) (hpos : 1 ≤ l.length) (he : e < 2 ^ 64)
    (ho : o < 4096) (hwpos : 1 ≤ w) (hw : 4096 * (l.length - 1) < o + w)
    (hw' : o + w ≤ 4096 * l.length) :
    Copied buf e o w u l m l.length (writePages buf e o (partsOf l.length o w) ⟨m, p, u⟩) := by
  by_cases h1 : l.length = 1
  · have start : Copied buf e o w u l m 0 ⟨m, p, u⟩ := Copied.start hl hpos
    have hone := start.writePage hl he ho (by omega) hw o w (pageSize - o) (by simp) (by omega)
      (by rw [pageSize_eq]; omega)
    rw [partsOf, if_pos h1, Atfs.writePages]
    simp only [ne_eq, show w ≠ 0 by omega, not_false_iff, if_true, not_true_eq_false, if_false,
      Int.toNat_zero, Function.iterate_zero, id]
    rwa [h1]
  · have h2 : 2 ≤ l.length := by omega
    have middle := (Copied.writeFirst buf u hl h2 he ho hw rfl).writeMiddle hl he ho hw
      (by intro h; split_ifs at h; omega)
      (j := ((l.length : Int) - (if o ≠ 0 then 1 else 0) -
        (if (w + o) % 4096 ≠ 0 then 1 else 0)).toNat)
      (by split_ifs <;> omega) (by split_ifs <;> omega)
    have last := middle.writeLast hl he ho hw hw' h2 rfl (by split_ifs <;> omega)
    rw [partsOf, if_neg h1]
    exact last

end Copying

end Atfs
