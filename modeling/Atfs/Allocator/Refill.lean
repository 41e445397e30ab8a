import Atfs.Allocator.Basic

/-!
# Refilling a local page list

A refill cuts 512 nodes off the global list and splices them behind the head of
the local list, an edit of the link function at two pages. The splice is right for
an empty local list and for one with two pages or more; behind a single page it
takes the end marker for a page and links to what it finds there.
-/

namespace Atfs

open ByteMemory LinkedChain

/-! ## The bytes the allocator writes -/

/-- The headers of the global list and of list `i`, and the links of the pages `L`. -/
def listBytes (i : Nat) (L : Set Nat) : Set Nat :=
  {a | (∃ j, (j = 0 ∨ j = i) ∧ getLocalPageListAddr j ≤ a ∧ a < getLocalPageListAddr j + 16) ∨
    ∃ p ∈ L, p + 4096 ≤ a ∧ a < p + 4104}

section ListBytes

variable {m m' : Memory} {i j p v : Nat} {L : Set Nat}

theorem eqOn_set_head (hj : j = 0 ∨ j = i) :
    Set.EqOn (PageList.head.set m (getLocalPageListAddr j) v) m (listBytes i L)ᶜ := by
  intro a ha
  refine Field.set_apply_of_outside _ m ?_
  by_contra hc
  exact ha (.inl ⟨j, hj, by simp at hc; omega, by simp at hc; omega⟩)

theorem eqOn_set_count (hj : j = 0 ∨ j = i) :
    Set.EqOn (PageList.count.set m (getLocalPageListAddr j) v) m (listBytes i L)ᶜ := by
  intro a ha
  refine Field.set_apply_of_outside _ m ?_
  by_contra hc
  exact ha (.inl ⟨j, hj, by simp at hc; omega, by simp at hc; omega⟩)

theorem eqOn_set_link (hp : p ∈ L) :
    Set.EqOn (ListNode.nextOffset.set m (p + 4096) v) m (listBytes i L)ᶜ := by
  intro a ha
  refine Field.set_apply_of_outside _ m ?_
  by_contra hc
  exact ha (.inr ⟨p, hp, by simp at hc; omega, by simp at hc; omega⟩)

theorem pageLink_of_eqOn (h : Set.EqOn m' m (listBytes i L)ᶜ) (hi : i ≤ gCpuNums)
    (hL : ∀ q ∈ L, IsPage q) (hp : IsPage p) (hpL : p ∉ L) : pageLink m' p = pageLink m p := by
  refine hp.pageLink_congr fun a ha => h ?_
  rintro (⟨j, hj, h1, h2⟩ | ⟨q, hq, h1, h2⟩)
  · have := hp.bounds
    have := ha.1
    rw [getLocalPageListAddr_eq] at h2
    rw [gCpuNums] at hi
    omega
  · have := (hL q hq).apart hp (by rintro rfl; exact hpL hq)
    have := ha.1
    have := ha.2
    omega

/-- Node fields behind the link are never written. -/
theorem node_get_of_eqOn (h : Set.EqOn m' m (listBytes i L)ᶜ) (hi : i ≤ gCpuNums)
    (hL : ∀ q ∈ L, IsPage q) (hp : IsPage p) (f : Field 40) (hf : 8 ≤ f.off) :
    f.get m' (p + 4096) = f.get m (p + 4096) := by
  refine Field.get_congr fun a ha => h ?_
  have := f.fits
  have h3 := ha.1
  have h4 := ha.2
  rintro (⟨j, hj, h1, h2⟩ | ⟨q, hq, h1, h2⟩)
  · have := hp.bounds
    rw [getLocalPageListAddr_eq] at h2
    rw [gCpuNums] at hi
    omega
  · by_cases hpq : q = p
    · omega
    · have := (hL q hq).apart hp hpq
      omega

theorem header_get_of_eqOn (h : Set.EqOn m' m (listBytes i L)ᶜ) (hL : ∀ q ∈ L, IsPage q)
    (hj : j ≤ gCpuNums) (hj0 : j ≠ 0) (hji : j ≠ i) (f : Field 56) :
    f.get m' (getLocalPageListAddr j) = f.get m (getLocalPageListAddr j) := by
  refine Field.get_congr fun a ha => h ?_
  have := f.fits
  have h3 := ha.1
  have h4 := ha.2
  rw [getLocalPageListAddr_eq] at h3 h4
  rw [gCpuNums] at hj
  rintro (⟨k, hk, h1, h2⟩ | ⟨q, hq, h1, h2⟩)
  · rw [getLocalPageListAddr_eq] at h1 h2
    omega
  · have := (hL q hq).bounds
    omega

end ListBytes

/-! ## Refilling a local list -/

/-- The pages of a local list after the pages `b` are spliced behind its head. -/
def refilled (l b : List Nat) : List Nat :=
  match l with
  | [] => b
  | h :: t => h :: b ++ t

/-- The `offset` field of the node that the code computes for `OFFSET_NULL`. -/
def nullNodeOffset (m : Memory) : Nat := ListNode.offset.get m (getNvmPageNodeAddr offsetNull)

/-- Where the refilled local list ends. -/
def refilledEnd (m : Memory) (l : List Nat) : Nat :=
  if l.length = 1 then nullNodeOffset m else offsetNull

theorem getNvmPageNodeAddr_offsetNull : getNvmPageNodeAddr offsetNull = 4095 := rfl

theorem length_refilled (l b : List Nat) : (refilled l b).length = l.length + b.length := by
  cases l with
  | nil => simp [refilled]
  | cons h t => simp [refilled]; omega

theorem perm_refilled (l b : List Nat) : (refilled l b).Perm (b ++ l) := by
  cases l with
  | nil => simp [refilled]
  | cons h t =>
    have := @List.perm_middle _ h b t
    exact this.symm

section Refill

variable {m : Memory} {i x c₀ c : Nat} {xs rest l : List Nat}

/-- The state a refill starts from: 512 pages at the front of the global list, and
the local list, all distinct. -/
structure RefillPre (m : Memory) (i : Nat) (xs : List Nat) (x : Nat) (rest l : List Nat)
    (c₀ c : Nat) : Prop where
  index : 1 ≤ i ∧ i ≤ gCpuNums
  block : xs.length + 1 = fillLocalPageListMax
  global : ListRep m 0 (xs ++ x :: rest) offsetNull c₀
  local_ : ListRep m i l offsetNull c
  page : ∀ p ∈ xs ++ x :: rest ++ l, IsPage p ∧ ListNode.offset.get m (p + 4096) = p
  nodup : (xs ++ x :: rest ++ l).Nodup

namespace RefillPre

/-- The page the global list starts with. -/
theorem first (h : RefillPre m i xs x rest l c₀ c) :
    PageList.head.get m (getLocalPageListAddr 0) ∈ xs ++ [x] := by
  have hs := h.global.chain
  cases xs with
  | nil => simp [hs.head_eq]
  | cons y ys => simp [Segment.head_eq hs]

theorem isPage (h : RefillPre m i xs x rest l c₀ c) {p : Nat} (hp : p ∈ xs ++ x :: rest ++ l) :
    IsPage p :=
  (h.page p hp).1

theorem isPage_x (h : RefillPre m i xs x rest l c₀ c) : IsPage x := h.isPage (by simp)

/-- The walk of the refill stops at the last of the 512 nodes. -/
theorem walk (h : RefillPre m i xs x rest l c₀ c) :
    (nextNode m)^[fillLocalPageListMax - 1]
      (getNvmPageNodeAddr (PageList.head.get m getPageListBaseAddr)) = x + 4096 := by
  have hb := h.block
  change (nextNode m)^[_] (getNvmPageNodeAddr (PageList.head.get m (getLocalPageListAddr 0))) = _
  rw [nextNode_iterate, show fillLocalPageListMax - 1 = xs.length by omega,
    h.global.chain.iterate (by simp)]
  simp [h.isPage_x.getNvmPageNodeAddr_eq]

/-- The memory after the global list has been cut behind `x`. -/
theorem cut (h : RefillPre m i xs x rest l c₀ c) :
    ∃ r, ListNode.nextOffset.get m (x + 4096) = r ∧ r < 2 ^ 64 ∧
      Segment (pageLink m) (PageList.head.get m (getLocalPageListAddr 0)) (xs ++ [x]) r ∧
      Segment (pageLink m) r rest offsetNull := by
  obtain ⟨r, hx, hr⟩ := segment_append.1
    (show Segment (pageLink m) _ ((xs ++ [x]) ++ rest) offsetNull by simpa using h.global.chain)
  have link := (segment_snoc.1 hx).2
  rw [h.isPage_x.pageLink_eq] at link
  exact ⟨r, link, link ▸ ListNode.nextOffset.get_lt m _, hx, hr⟩

end RefillPre

/-- What the last of the 512 nodes is linked to: the second page of the local list,
read through the `offset` field of its node. -/
def spliceTarget (m : Memory) : List Nat → Nat
  | _ :: t :: _ => t
  | _ => nullNodeOffset m

/-- The links and heads after a refill, `r` being the rest of the global list. -/
def spliced (m : Memory) (i x r : Nat) (l : List Nat) : Memory :=
  let a := PageList.head.get m (getLocalPageListAddr 0)
  let m2 := ListNode.nextOffset.set (PageList.head.set m (getLocalPageListAddr 0) r) (x + 4096)
    offsetNull
  match l with
  | [] => PageList.head.set m2 (getLocalPageListAddr i) a
  | h :: _ => ListNode.nextOffset.set (ListNode.nextOffset.set m2 (h + 4096) a) (x + 4096)
      (spliceTarget m l)

namespace RefillPre

variable (h : RefillPre m i xs x rest l c₀ c)
include h

theorem index_ne : i ≠ 0 := by have := h.index; omega

theorem offset_of_eqOn {m' : Memory}
    (hm : Set.EqOn m' m (listBytes i {p | p ∈ xs ++ x :: rest ++ l})ᶜ) {p : Nat} (hp : IsPage p) :
    ListNode.offset.get m' (p + 4096) = ListNode.offset.get m (p + 4096) :=
  node_get_of_eqOn hm h.index.2 (fun _ hq => h.isPage hq) hp _ (by decide)

/-- The bogus node of the end marker lies in front of the page-list table. -/
theorem nullNodeOffset_of_eqOn {m' : Memory}
    (hm : Set.EqOn m' m (listBytes i {p | p ∈ xs ++ x :: rest ++ l})ᶜ) :
    nullNodeOffset m' = nullNodeOffset m := by
  refine Field.get_congr fun a ha => hm ?_
  have h1 := ha.1
  have h2 := ha.2
  rw [getNvmPageNodeAddr_offsetNull] at h1 h2
  simp only [ListNode.offset_off, ListNode.offset_size] at h1 h2
  rintro (⟨j, _, hj1, hj2⟩ | ⟨q, hq, hq1, hq2⟩)
  · rw [getLocalPageListAddr_eq] at hj1
    omega
  · have := (h.isPage hq).bounds
    omega

theorem eqOn_spliced (r : Nat) :
    Set.EqOn (spliced m i x r l) m (listBytes i {p | p ∈ xs ++ x :: rest ++ l})ᶜ := by
  have hx : x ∈ {p | p ∈ xs ++ x :: rest ++ l} := by simp
  cases l with
  | nil =>
    exact (eqOn_set_head (.inr rfl)).trans ((eqOn_set_link hx).trans (eqOn_set_head (.inl rfl)))
  | cons y t =>
    have hy : y ∈ {p | p ∈ xs ++ x :: rest ++ y :: t} := by simp
    exact (eqOn_set_link hx).trans ((eqOn_set_link hy).trans
      ((eqOn_set_link hx).trans (eqOn_set_head (.inl rfl))))

/-- The refill, with its walk and its branch resolved. -/
theorem fill_eq {r : Nat} (hr : ListNode.nextOffset.get m (x + 4096) = r) :
    fillLocalPageList m (getLocalPageListAddr i) fillLocalPageListMax =
      (let m' := PageList.count.set (spliced m i x r l) (getLocalPageListAddr 0)
        (addU64 (PageList.count.get (spliced m i x r l) (getLocalPageListAddr 0))
          (2 ^ 64 - fillLocalPageListMax))
      PageList.count.set m' (getLocalPageListAddr i)
        (PageList.count.get m' (getLocalPageListAddr i) + fillLocalPageListMax)) := by
  have hfirst := h.first
  set a := PageList.head.get m (getLocalPageListAddr 0) with ha
  have haL : a ∈ xs ++ x :: rest ++ l := by
    simp only [List.mem_append, List.mem_cons] at hfirst ⊢
    grind
  have hpa := h.isPage haL
  set m1 := PageList.head.set m (getLocalPageListAddr 0) r with hm1
  set m2 := ListNode.nextOffset.set m1 (x + 4096) offsetNull with hm2
  have hx : x ∈ {p | p ∈ xs ++ x :: rest ++ l} := by simp
  have e2 : Set.EqOn m2 m (listBytes i {p | p ∈ xs ++ x :: rest ++ l})ᶜ :=
    (eqOn_set_link hx).trans (eqOn_set_head (.inl rfl))
  have hhead : PageList.head.get m2 (getLocalPageListAddr i) =
      PageList.head.get m (getLocalPageListAddr i) := by
    rw [hm2, header_get_set_node h.index.2 h.isPage_x, hm1,
      header_get_set_header h.index_ne]
  have haoff : ∀ m', Set.EqOn m' m (listBytes i {p | p ∈ xs ++ x :: rest ++ l})ᶜ →
      ListNode.offset.get m' (getNvmPageNodeAddr a) = a := by
    intro m' hm'
    rw [hpa.getNvmPageNodeAddr_eq, h.offset_of_eqOn hm' hpa]
    exact (h.page a haL).2
  have hsp : (if PageList.head.get m2 (getLocalPageListAddr i) = offsetNull then
        PageList.head.set m2 (getLocalPageListAddr i)
          (ListNode.offset.get m2 (getNvmPageNodeAddr a))
      else
        let head := getNvmPageNodeAddr (PageList.head.get m2 (getLocalPageListAddr i))
        let next := getNvmPageNodeAddr (ListNode.nextOffset.get m2 head)
        let m3 := ListNode.nextOffset.set m2 head (ListNode.offset.get m2 (getNvmPageNodeAddr a))
        ListNode.nextOffset.set m3 (x + 4096) (ListNode.offset.get m3 next)) =
      spliced m i x r l := by
    rw [hhead, haoff m2 e2]
    have hl := h.local_.chain
    cases hcase : l with
    | nil =>
      subst hcase
      rw [if_pos (segment_nil.1 hl)]
      rfl
    | cons y t =>
      subst hcase
      have hyL : y ∈ xs ++ x :: rest ++ y :: t := by simp
      have hpy := h.isPage hyL
      have hxy : y ≠ x := by
        rintro rfl
        have := h.nodup
        simp [List.nodup_append] at this
      obtain ⟨hy, ht⟩ := hl
      rw [hy, if_neg hpy.ne_offsetNull, hpy.getNvmPageNodeAddr_eq]
      have hlink : ListNode.nextOffset.get m2 (y + 4096) = pageLink m y := by
        rw [hm2, hpy.get_set_node h.isPage_x hxy, hm1,
          node_get_set_header (Nat.zero_le _) hpy, ← hpy.pageLink_eq]
      have e3 : Set.EqOn (ListNode.nextOffset.set m2 (y + 4096) a) m
          (listBytes i {p | p ∈ xs ++ x :: rest ++ y :: t})ᶜ :=
        (eqOn_set_link (by simp)).trans e2
      have htarget : ListNode.offset.get (ListNode.nextOffset.set m2 (y + 4096) a)
          (getNvmPageNodeAddr (pageLink m y)) = spliceTarget m (y :: t) := by
        cases t with
        | nil =>
          rw [show pageLink m y = offsetNull from ht]
          exact h.nullNodeOffset_of_eqOn e3
        | cons z t =>
          have hzL : z ∈ xs ++ x :: rest ++ y :: z :: t := by simp
          have hpz := h.isPage hzL
          rw [ht.head_eq, hpz.getNvmPageNodeAddr_eq, h.offset_of_eqOn e3 hpz]
          exact (h.page z hzL).2
      dsimp only
      rw [hlink, htarget]
      rfl
  rw [fillLocalPageList]
  simp only [h.walk, hr]
  exact congrArg (fun s => PageList.count.set (PageList.count.set s (getLocalPageListAddr 0)
    (addU64 (PageList.count.get s (getLocalPageListAddr 0)) (2 ^ 64 - fillLocalPageListMax)))
    (getLocalPageListAddr i) (PageList.count.get (PageList.count.set s (getLocalPageListAddr 0)
    (addU64 (PageList.count.get s (getLocalPageListAddr 0)) (2 ^ 64 - fillLocalPageListMax)))
    (getLocalPageListAddr i) + fillLocalPageListMax)) hsp

theorem first_mem : PageList.head.get m (getLocalPageListAddr 0) ∈ xs ++ x :: rest ++ l := by
  have := h.first
  simp only [List.mem_append, List.mem_cons] at this ⊢
  grind

theorem eqOn_fill : Set.EqOn (fillLocalPageList m (getLocalPageListAddr i) fillLocalPageListMax) m
    (listBytes i {p | p ∈ xs ++ x :: rest ++ l})ᶜ := by
  rw [h.fill_eq rfl]
  exact (eqOn_set_count (.inr rfl)).trans ((eqOn_set_count (.inl rfl)).trans (h.eqOn_spliced _))

theorem spliceTarget_lt : spliceTarget m l < 2 ^ 64 := by
  have hn : nullNodeOffset m < 2 ^ 64 := Field.get_lt _ _ _
  match l, h with
  | [], _ => exact hn
  | [_], _ => exact hn
  | _ :: t :: _, h =>
    have := (h.isPage (p := t) (by simp)).bounds
    simp only [spliceTarget]
    omega

/-- The link function after a refill. -/
def newLink (m : Memory) (x : Nat) (l : List Nat) : Nat → Nat :=
  match l with
  | [] => Function.update (pageLink m) x offsetNull
  | y :: _ => Function.update (Function.update (pageLink m) y
      (PageList.head.get m (getLocalPageListAddr 0))) x (spliceTarget m l)

theorem pageLink_fill {p : Nat} (hp : IsPage p) :
    pageLink (fillLocalPageList m (getLocalPageListAddr i) fillLocalPageListMax) p =
      newLink m x l p := by
  have hx := h.isPage_x
  have ha := (h.isPage h.first_mem).bounds
  have hz : (0 : Nat) ≤ gCpuNums := Nat.zero_le _
  have hnull : offsetNull < 2 ^ 64 := by decide
  rw [h.fill_eq rfl]
  dsimp only
  rw [pageLink_set_header h.index.2 hp, pageLink_set_header hz hp]
  have ht := h.spliceTarget_lt
  cases hl : l with
  | nil =>
    subst hl
    rw [spliced, newLink]
    rw [pageLink_set_header h.index.2 hp, hp.pageLink_set hx hnull]
    by_cases hpx : p = x
    · subst hpx; simp
    · rw [Function.update_of_ne hpx, Function.update_of_ne hpx, pageLink_set_header hz hp]
  | cons y t =>
    subst hl
    have hy := h.isPage (p := y) (by simp)
    rw [spliced, newLink]
    rw [hp.pageLink_set hx ht]
    by_cases hpx : p = x
    · subst hpx; simp
    · rw [Function.update_of_ne hpx, Function.update_of_ne hpx, hp.pageLink_set hy (by omega)]
      by_cases hpy : p = y
      · subst hpy; simp
      · rw [Function.update_of_ne hpy, Function.update_of_ne hpy, hp.pageLink_set hx hnull,
          Function.update_of_ne hpx, pageLink_set_header hz hp]

theorem count_spliced (r : Nat) {j : Nat} (hj : j ≤ gCpuNums) :
    PageList.count.get (spliced m i x r l) (getLocalPageListAddr j) =
      PageList.count.get m (getLocalPageListAddr j) := by
  have hhead (m : Memory) (k v : Nat) : PageList.count.get
      (PageList.head.set m (getLocalPageListAddr k) v) (getLocalPageListAddr j) =
        PageList.count.get m (getLocalPageListAddr j) := by
    by_cases hk : j = k
    · subst hk; exact Field.get_set_of_disjoint _ _ _ (by simp)
    · exact header_get_set_header hk _ _ _ _
  cases l with
  | nil => rw [spliced, hhead, header_get_set_node hj h.isPage_x, hhead]
  | cons y t =>
    rw [spliced, header_get_set_node hj h.isPage_x,
      header_get_set_node hj (h.isPage (p := y) (by simp)),
      header_get_set_node hj h.isPage_x, hhead]

theorem head_fill (r : Nat) (hr : ListNode.nextOffset.get m (x + 4096) = r) {j : Nat} :
    PageList.head.get (fillLocalPageList m (getLocalPageListAddr i) fillLocalPageListMax)
      (getLocalPageListAddr j) = PageList.head.get (spliced m i x r l)
        (getLocalPageListAddr j) := by
  have hcount (m : Memory) (k v : Nat) : PageList.head.get
      (PageList.count.set m (getLocalPageListAddr k) v) (getLocalPageListAddr j) =
        PageList.head.get m (getLocalPageListAddr j) := by
    by_cases hk : j = k
    · subst hk; exact Field.get_set_of_disjoint _ _ _ (by simp)
    · exact header_get_set_header hk _ _ _ _
  rw [h.fill_eq hr]
  dsimp only
  rw [hcount, hcount]

/-- The global list after a refill has lost its first 512 pages. -/
theorem global_fill : ListRep (fillLocalPageList m (getLocalPageListAddr i) fillLocalPageListMax) 0
    rest offsetNull (addU64 c₀ (2 ^ 64 - fillLocalPageListMax)) := by
  obtain ⟨r, hr, hlt, -, hrest⟩ := h.cut
  have hne := h.index_ne
  have hnodup := h.nodup
  constructor
  · have head : PageList.head.get (spliced m i x r l) (getLocalPageListAddr 0) = r := by
      cases l with
      | nil =>
        rw [spliced, header_get_set_header hne.symm, header_get_set_node (Nat.zero_le _) h.isPage_x]
        exact Field.get_set_self_of_lt _ _ hlt
      | cons y t =>
        rw [spliced, header_get_set_node (Nat.zero_le _) h.isPage_x,
          header_get_set_node (Nat.zero_le _) (h.isPage (p := y) (by simp)),
          header_get_set_node (Nat.zero_le _) h.isPage_x]
        exact Field.get_set_self_of_lt _ _ hlt
    rw [h.head_fill r hr, head]
    refine hrest.congr fun p hp => ?_
    rw [h.pageLink_fill (h.isPage (by simp [hp]))]
    have hpx : p ≠ x := by rintro rfl; simp [List.nodup_append, hp] at hnodup
    cases l with
    | nil => exact (Function.update_of_ne hpx _ _).symm
    | cons y t =>
      have hpy : p ≠ y := by rintro rfl; simp [List.nodup_append] at hnodup; grind
      rw [newLink, Function.update_of_ne hpx, Function.update_of_ne hpy]
  · rw [h.fill_eq hr]
    dsimp only
    rw [header_get_set_header hne.symm, h.count_spliced r (Nat.zero_le _),
      Field.get_set_self_of_lt PageList.count _ (addU64_lt _ _), h.global.count]

/-- The local list after a refill: the new pages stand behind the old head. -/
theorem local_fill (hc : c ≤ l.length) :
    ListRep (fillLocalPageList m (getLocalPageListAddr i) fillLocalPageListMax) i
      (refilled l (xs ++ [x])) (refilledEnd m l) (c + fillLocalPageListMax) := by
  obtain ⟨r, hr, hlt, hblock, -⟩ := h.cut
  have hne := h.index_ne
  have hi := h.index.2
  have hnodup := h.nodup
  set a := PageList.head.get m (getLocalPageListAddr 0) with ha
  have hablt := (h.isPage h.first_mem).bounds
  have hxs : x ∉ xs := by simp [List.nodup_append] at hnodup; grind
  constructor
  · rw [h.head_fill r hr]
    have links : ∀ p ∈ refilled l (xs ++ [x]), newLink m x l p = pageLink
        (fillLocalPageList m (getLocalPageListAddr i) fillLocalPageListMax) p := by
      intro p hp
      refine (h.pageLink_fill (h.isPage ?_)).symm
      have := (perm_refilled l (xs ++ [x])).mem_iff.1 hp
      simp only [List.mem_append, List.mem_cons] at this ⊢
      grind
    have chain : Segment (newLink m x l) (PageList.head.get (spliced m i x r l)
        (getLocalPageListAddr i)) (refilled l (xs ++ [x])) (refilledEnd m l) := by
      cases hl : l with
      | nil =>
        subst hl
        have head : PageList.head.get (spliced m i x r []) (getLocalPageListAddr i) = a := by
          rw [spliced]
          exact Field.get_set_self_of_lt _ _ (by simp; omega)
        rw [head]
        exact hblock.relink_last hxs
      | cons y t =>
        subst hl
        have hloc := h.local_.chain
        have hy := h.isPage (p := y) (by simp)
        have hyx : y ≠ x := by rintro rfl; simp [List.nodup_append] at hnodup
        have hyxs : y ∉ xs := by simp [List.nodup_append] at hnodup; grind
        have head : PageList.head.get (spliced m i x r (y :: t)) (getLocalPageListAddr i) = y := by
          rw [spliced, header_get_set_node hi h.isPage_x, header_get_set_node hi hy,
            header_get_set_node hi h.isPage_x, header_get_set_header hne]
          exact hloc.head_eq
        have hcut : Segment (newLink m x (y :: t)) a (xs ++ [x]) (spliceTarget m (y :: t)) := by
          refine Segment.relink_last (q := r) (Segment.update hblock ?_) hxs
          simp [hyxs, hyx]
        refine ⟨head, ?_⟩
        rw [newLink, Function.update_of_ne hyx, Function.update_self]
        refine hcut.append ?_
        cases t with
        | nil => rfl
        | cons z t =>
          have htail : Segment (pageLink m) z (z :: t) offsetNull := by
            have := hloc.2
            rwa [this.head_eq] at this
          refine (htail.update ?_).update ?_ <;>
            simp [List.nodup_append] at hnodup ⊢ <;> grind
    exact chain.congr links
  · have hpages : l.length ≤ nvmFreeNumPages :=
      IsPage.length_le (fun p hp => h.isPage (by simp [hp])) (List.nodup_append.1 hnodup).2.1
    rw [nvmFreeNumPages_eq] at hpages
    rw [h.fill_eq hr]
    dsimp only
    rw [header_get_set_header hne, h.count_spliced r hi, h.local_.count, fillLocalPageListMax,
      Field.get_set_self_of_lt _ _ (by simp; omega)]

end RefillPre

end Refill

end Atfs
