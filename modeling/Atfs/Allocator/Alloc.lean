import Atfs.Allocator.Image

/-!
# Allocating pages

`alloc_free_pages` refills the selected local list when its count is too small and
cuts the front of the list. `allocFreePages_exact_iff` says when it hands out
exactly what it removes: always, except when a request of two pages or more meets
a local list of a single page, where the refill loses the end of the list.
-/

namespace Atfs

open ByteMemory LinkedChain

/-- The index of the local list that `get_cpuid` selects. -/
def localIndex (currentCpu : Nat) : Nat := (getCpuid currentCpu).1 + 1

theorem localIndex_bounds (currentCpu : Nat) :
    1 ≤ localIndex currentCpu ∧ localIndex currentCpu ≤ gCpuNums := by
  have h : (getCpuid currentCpu).1 < gCpuNums := Nat.mod_lt _ (by decide)
  rw [localIndex]
  omega

/-- The two lists an allocation works on, with their counts: the global list `G` and
the local list `l` of index `i`. -/
structure ListPair (m : Memory) (i : Nat) (G l : List Nat) (e c₀ c : Nat) : Prop where
  global : ListRep m 0 G offsetNull c₀
  local_ : ListRep m i l e c
  page : ∀ p ∈ G ++ l, IsPage p ∧ ListNode.offset.get m (p + 4096) = p
  nodup : (G ++ l).Nodup

/-- The nodes that a refill takes off the global list. -/
theorem exists_block {G : List Nat} (hG : fillLocalPageListMax ≤ G.length) :
    ∃ xs x rest, G = xs ++ x :: rest ∧ xs.length + 1 = fillLocalPageListMax := by
  have hlt : fillLocalPageListMax - 1 < G.length := by rw [fillLocalPageListMax] at *; omega
  refine ⟨G.take (fillLocalPageListMax - 1), G[fillLocalPageListMax - 1],
    G.drop (fillLocalPageListMax - 1 + 1), ?_, ?_⟩
  · rw [List.getElem_cons_drop, List.take_append_drop]
  · rw [List.length_take, fillLocalPageListMax] at *
    omega

namespace ListPair

variable {m : Memory} {i e c₀ c n : Nat} {G l : List Nat}

theorem isPage (h : ListPair m i G l e c₀ c) {p : Nat} (hp : p ∈ G ++ l) : IsPage p :=
    (h.page p hp).1

/-- One refill moves 512 pages to the local list. The local list ends where the refill linked
it. -/
theorem fill (h : ListPair m i G l offsetNull c₀ c) (hi : 1 ≤ i ∧ i ≤ gCpuNums)
    (hc : c ≤ l.length) (hG : fillLocalPageListMax ≤ G.length) {m' : Memory}
    (hm' : m' = fillLocalPageList m (getLocalPageListAddr i) fillLocalPageListMax) :
    ∃ G' l' c₀', ListPair m' i G' l' (refilledEnd m l) c₀' (c + fillLocalPageListMax) ∧
      G'.length + fillLocalPageListMax = G.length ∧
      l'.length = l.length + fillLocalPageListMax ∧ (G' ++ l').Perm (G ++ l) ∧
      Set.EqOn m' m (listBytes i {p | p ∈ G ++ l})ᶜ ∧ (c₀ = G.length → c₀' = G'.length) := by
  obtain ⟨xs, x, rest, rfl, hxs⟩ := exists_block hG
  have pre : RefillPre m i xs x rest l c₀ c := ⟨hi, hxs, h.global, h.local_, h.page, h.nodup⟩
  have hglobal := pre.global_fill
  have hlocal := pre.local_fill hc
  have heq := pre.eqOn_fill
  rw [← hm'] at hglobal hlocal heq
  have hperm : (rest ++ refilled l (xs ++ [x])).Perm (xs ++ x :: rest ++ l) := by
    have := (perm_refilled l (xs ++ [x])).append_left rest
    refine this.trans ?_
    have hr : (rest ++ (xs ++ [x])).Perm (xs ++ x :: rest) := by
      simpa using @List.perm_append_comm _ rest (xs ++ [x])
    simpa using hr.append_right l
  refine ⟨rest, refilled l (xs ++ [x]), _, ⟨hglobal, hlocal, fun p hp => ?_,
    hperm.nodup_iff.2 h.nodup⟩, ?_, ?_, hperm, heq, fun hlen => ?_⟩
  · have hp' := hperm.mem_iff.1 hp
    refine ⟨h.isPage hp', ?_⟩
    rw [pre.offset_of_eqOn heq (h.isPage hp')]
    exact (h.page p hp').2
  · rw [List.length_append, List.length_cons]
    omega
  · rw [length_refilled, List.length_append, List.length_singleton, hxs]
  · have hlt : c₀ < 2 ^ 64 := h.global.count ▸ Field.get_lt _ _ _
    rw [List.length_append, List.length_cons] at hlen
    rw [fillLocalPageListMax] at *
    rw [addU64]
    omega

/-- What the refill loop leaves: the same pages on the two lists, enough of them on the
local one. The local list ends where the last refill linked it. -/
theorem refill (h : ListPair m i G l offsetNull c₀ c) (hi : 1 ≤ i ∧ i ≤ gCpuNums)
    (hn : 1 ≤ n) (hn' : n ≤ fillLocalPageListMax) (hc : c ≤ l.length)
    (hG : c < n → fillLocalPageListMax ≤ G.length) :
    ∃ m' G' l' c₀' c', refillLocalPageList (getLocalPageListAddr i) n (n + 2) m = some m' ∧
      ListPair m' i G' l' (if c < n then refilledEnd m l else offsetNull) c₀' c' ∧
      n ≤ c' ∧ c' ≤ l'.length ∧ (G' ++ l').Perm (G ++ l) ∧
      Set.EqOn m' m (listBytes i {p | p ∈ G ++ l})ᶜ ∧
      (c₀ = G.length → c₀' = G'.length) ∧ (c = l.length → c' = l'.length) := by
  by_cases hcn : c < n
  · -- one refill is enough, since it adds at least the largest request
    obtain ⟨G', l', c₀', hpair, -, hlen, hperm, heq, hcount₀⟩ := h.fill hi hc (hG hcn) rfl
    refine ⟨_, G', l', c₀', c + fillLocalPageListMax, ?_, by rwa [if_pos hcn], by omega, by omega,
      hperm, heq, hcount₀, by omega⟩
    have hfirst : PageList.count.get m (getLocalPageListAddr i) = c := h.local_.count
    have hsecond := hpair.local_.count
    rw [refillLocalPageList, refillLocalPageList.eq_def _ _ (n + 1)]
    simp only [hfirst, hcn, or_true, if_true, hsecond]
    rw [if_neg (by rw [fillLocalPageListMax] at *; omega)]
  · refine ⟨m, G, l, c₀, c, ?_, ?_, by omega, hc, List.Perm.refl _, fun _ _ => rfl, id, id⟩
    · rw [refillLocalPageList]
      simp only [h.local_.count]
      rw [if_neg (by omega)]
    · rw [if_neg hcn]; exact h

/-- The refill loop goes on until the local list is long enough. -/
theorem refillAll (h : ListPair m i G l offsetNull G.length l.length) (hi : 1 ≤ i ∧ i ≤ gCpuNums)
    (hn : 1 ≤ n) (k fuel : Nat) (hk : n ≤ l.length + fillLocalPageListMax * k)
    (hfuel : k < fuel) (hG : fillLocalPageListMax * k ≤ G.length)
    (hend : l.length < n → l.length = 1 → nullNodeOffset m = offsetNull) :
    ∃ m' G' l', refillLocalPageList (getLocalPageListAddr i) n fuel m = some m' ∧
      ListPair m' i G' l' offsetNull G'.length l'.length ∧ n ≤ l'.length ∧
      (G' ++ l').Perm (G ++ l) ∧ Set.EqOn m' m (listBytes i {p | p ∈ G ++ l})ᶜ := by
  induction k generalizing m G l fuel with
  | zero =>
    obtain ⟨fuel, rfl⟩ : ∃ f, fuel = f + 1 := ⟨fuel - 1, by omega⟩
    refine ⟨m, G, l, ?_, h, by omega, List.Perm.refl _, fun _ _ => rfl⟩
    rw [refillLocalPageList]
    simp only [h.local_.count]
    rw [if_neg (by omega)]
  | succ k ih =>
    obtain ⟨fuel, rfl⟩ : ∃ f, fuel = f + 1 := ⟨fuel - 1, by omega⟩
    rw [refillLocalPageList]
    simp only [h.local_.count]
    by_cases hcn : l.length < n
    · rw [if_pos (.inr hcn)]
      rw [fillLocalPageListMax] at hk hG
      obtain ⟨G', l', c₀', hpair, hlenG, hlen, hperm, heq, hcount₀⟩ :=
        h.fill hi le_rfl (by rw [fillLocalPageListMax]; omega) rfl
      have hnull : refilledEnd m l = offsetNull := by
        rw [refilledEnd]
        split_ifs with h1
        · exact hend hcn h1
        · rfl
      rw [hcount₀ rfl, ← hlen, hnull] at hpair
      rw [fillLocalPageListMax] at hlen hlenG
      have hpages : {p | p ∈ G' ++ l'} = {p | p ∈ G ++ l} := Set.ext fun p => hperm.mem_iff
      obtain ⟨m', G'', l'', hfill, hpair', hle, hperm', heq'⟩ := ih hpair fuel
        (by rw [fillLocalPageListMax]; omega) (by omega)
        (by rw [fillLocalPageListMax]; omega) (by omega)
      rw [hpages] at heq'
      exact ⟨m', G'', l'', hfill, hpair', hle, hperm'.trans hperm, heq'.trans heq⟩
    · rw [if_neg (by omega)]
      exact ⟨m, G, l, rfl, h, by omega, List.Perm.refl _, fun _ _ => rfl⟩

end ListPair

/-! ## Cutting the front of a list -/

/-- The writes of `alloc_free_pages` after its refill loop. -/
def takeFront (m : Memory) (localPageList pageNum : Nat) : Memory :=
  let head := getNvmPageNodeAddr (PageList.head.get m localPageList)
  let node := (nextNode m)^[decU32 pageNum] head
  let m := PageList.head.set m localPageList (ListNode.nextOffset.get m node)
  let m := ListNode.nextOffset.set m node offsetNull
  PageList.count.set m localPageList (subU64 (PageList.count.get m localPageList) pageNum)

theorem allocFreePages_eq {m m' : Memory} {currentCpu n : Nat}
    (h : refillLocalPageList (getLocalPageListAddr (localIndex currentCpu)) n (n + 2) m = some m') :
    allocFreePages m currentCpu n =
      some (getNvmPageNodeAddr
        (PageList.head.get m' (getLocalPageListAddr (localIndex currentCpu))),
        takeFront m' (getLocalPageListAddr (localIndex currentCpu)) n,
          (getCpuid currentCpu).2) := by
  rw [localIndex] at h ⊢
  unfold allocFreePages
  simp only [h, Option.bind_eq_bind, Option.bind_some]
  rfl

theorem ListPair.takeFront {m : Memory} {i e c₀ c n : Nat} {G l : List Nat}
    (h : ListPair m i G l e c₀ c) (hi : 1 ≤ i ∧ i ≤ gCpuNums) (hn : 1 ≤ n) (hnc : n ≤ c)
    (hc : c ≤ l.length) :
    ListPair (Atfs.takeFront m (getLocalPageListAddr i) n) i G (l.drop n) e c₀ (c - n) ∧
      Segment (pageLink (Atfs.takeFront m (getLocalPageListAddr i) n))
        (PageList.head.get m (getLocalPageListAddr i)) (l.take n) offsetNull ∧
      Set.EqOn (Atfs.takeFront m (getLocalPageListAddr i) n) m (listBytes i {p | p ∈ G ++ l})ᶜ := by
  obtain ⟨ys, y, zs, rfl, hys⟩ : ∃ ys y zs, l = ys ++ y :: zs ∧ ys.length + 1 = n := by
    have hlt : n - 1 < l.length := by omega
    refine ⟨l.take (n - 1), l[n - 1], l.drop (n - 1 + 1), ?_, ?_⟩
    · rw [List.getElem_cons_drop, List.take_append_drop]
    · rw [List.length_take]
      omega
  subst hys
  have htake : (ys ++ y :: zs).take (ys.length + 1) = ys ++ [y] := by
    simp [List.take_append, List.take_of_length_le (Nat.le_succ _)]
  have hdrop : (ys ++ y :: zs).drop (ys.length + 1) = zs := by simp
  have hy := h.isPage (p := y) (by simp)
  have hnodup := h.nodup
  have hlen : (ys ++ y :: zs).length ≤ nvmFreeNumPages :=
    IsPage.length_le (fun p hp => h.isPage (by simp only [List.mem_append] at *; exact .inr hp))
      (List.nodup_append.1 hnodup).2.1
  have hbound : ys.length + 1 ≤ 2 ^ 32 := by
    rw [nvmFreeNumPages_eq] at hlen
    omega
  obtain ⟨r, hfront, hrest⟩ := segment_append.1
    (show Segment (pageLink m) _ ((ys ++ [y]) ++ zs) e by simpa using h.local_.chain)
  have hr : ListNode.nextOffset.get m (y + 4096) = r := by
    rw [← hy.pageLink_eq]
    exact (segment_snoc.1 hfront).2
  have hrlt : r < 2 ^ 64 := hr ▸ Field.get_lt _ _ _
  have hnull : offsetNull < 2 ^ 64 := by decide
  have hwalk : (nextNode m)^[decU32 (ys.length + 1)]
      (getNvmPageNodeAddr (PageList.head.get m (getLocalPageListAddr i))) = y + 4096 := by
    rw [decU32_of_pos (by omega) hbound, nextNode_iterate, Nat.add_sub_cancel,
      h.local_.chain.iterate (by simp)]
    simp [hy.getNvmPageNodeAddr_eq]
  set m1 := PageList.head.set m (getLocalPageListAddr i) r with hm1
  set m2 := ListNode.nextOffset.set m1 (y + 4096) offsetNull with hm2
  have hcount2 (j : Nat) (hj : j ≤ gCpuNums) : PageList.count.get m2 (getLocalPageListAddr j) =
      PageList.count.get m (getLocalPageListAddr j) := by
    rw [hm2, header_get_set_node hj hy, hm1]
    by_cases hji : j = i
    · subst hji; exact Field.get_set_of_disjoint _ _ _ (by simp)
    · exact header_get_set_header hji _ _ _ _
  have hm' : Atfs.takeFront m (getLocalPageListAddr i) (ys.length + 1) =
      PageList.count.set m2 (getLocalPageListAddr i) (subU64 c (ys.length + 1)) := by
    rw [Atfs.takeFront, hwalk, hr, ← hm1, ← hm2, hcount2 i hi.2, h.local_.count]
  have heq : Set.EqOn (Atfs.takeFront m (getLocalPageListAddr i) (ys.length + 1)) m
      (listBytes i {p | p ∈ G ++ (ys ++ y :: zs)})ᶜ := by
    rw [hm']
    exact (eqOn_set_count (.inr rfl)).trans
      ((eqOn_set_link (by simp)).trans (eqOn_set_head (.inr rfl)))
  have hlink {p : Nat} (hp : IsPage p) : pageLink (Atfs.takeFront m (getLocalPageListAddr i)
      (ys.length + 1)) p = Function.update (pageLink m) y offsetNull p := by
    rw [hm', pageLink_set_header hi.2 hp, hm2, hp.pageLink_set hy hnull]
    by_cases hpy : p = y
    · subst hpy; simp
    · rw [Function.update_of_ne hpy, Function.update_of_ne hpy, hm1, pageLink_set_header hi.2 hp]
  have hne : i ≠ 0 := by omega
  rw [htake, hdrop]
  refine ⟨⟨⟨?_, ?_⟩, ⟨?_, ?_⟩, ?_, ?_⟩, ?_, heq⟩
  · -- the global list is untouched
    have head : PageList.head.get (Atfs.takeFront m (getLocalPageListAddr i) (ys.length + 1))
        (getLocalPageListAddr 0) = PageList.head.get m (getLocalPageListAddr 0) := by
      rw [hm', header_get_set_header hne.symm, hm2, header_get_set_node (Nat.zero_le _) hy, hm1,
        header_get_set_header hne.symm]
    rw [head]
    refine h.global.chain.congr fun p hp => ?_
    rw [hlink (h.isPage (by simp [hp])), Function.update_of_ne]
    rintro rfl
    simp [List.nodup_append] at hnodup
    grind
  · rw [hm', header_get_set_header hne.symm, hcount2 0 (Nat.zero_le _)]
    exact h.global.count
  · have head : PageList.head.get (Atfs.takeFront m (getLocalPageListAddr i) (ys.length + 1))
        (getLocalPageListAddr i) = r := by
      rw [hm', Field.get_set_of_disjoint _ _ _ (by simp), hm2, header_get_set_node hi.2 hy]
      exact Field.get_set_self_of_lt _ _ hrlt
    rw [head]
    refine hrest.congr fun p hp => ?_
    rw [hlink (h.isPage (by simp [hp])), Function.update_of_ne]
    rintro rfl
    simp [List.nodup_append] at hnodup
    grind
  · have hclt : c < 2 ^ 64 := h.local_.count ▸ Field.get_lt _ _ _
    rw [hm', Field.get_set_self_of_lt PageList.count _ (subU64_lt _ _), subU64_of_le hnc hclt]
  · intro p hp
    have hp' : p ∈ G ++ (ys ++ y :: zs) := by
      simp only [List.mem_append, List.mem_cons] at hp ⊢
      grind
    refine ⟨h.isPage hp', ?_⟩
    rw [node_get_of_eqOn heq hi.2 (fun _ hq => h.isPage hq) (h.isPage hp') _ (by decide)]
    exact (h.page p hp').2
  · refine hnodup.sublist ?_
    exact List.Sublist.append_left ((List.sublist_cons_self y zs).trans
      (List.sublist_append_right ys (y :: zs))) G
  · refine Segment.congr (f := Function.update (pageLink m) y offsetNull) ?_ fun p hp =>
      (hlink (h.isPage (by simp only [List.mem_append, List.mem_cons] at hp ⊢; grind))).symm
    refine hfront.relink_last ?_
    simp [List.nodup_append] at hnodup
    grind

/-! ## The whole allocation -/

/-- A local list that is long enough is cut and nothing else. -/
theorem ListPair.takeLocal {m : Memory} {currentCpu c₀ c n : Nat} {G l : List Nat}
    (h : ListPair m (localIndex currentCpu) G l offsetNull c₀ c) (hn : 1 ≤ n) (hnc : n ≤ c)
    (hc : c ≤ l.length) :
    ∃ p m', Atfs.allocFreePages m currentCpu n =
        some (getNvmPageNodeAddr p, m', (getCpuid currentCpu).2) ∧
      ListPair m' (localIndex currentCpu) G (l.drop n) offsetNull c₀ (c - n) ∧
      Segment (pageLink m') p (l.take n) offsetNull ∧
      Set.EqOn m' m (listBytes (localIndex currentCpu) {p | p ∈ G ++ l})ᶜ := by
  have hi := localIndex_bounds currentCpu
  have hstay : refillLocalPageList (getLocalPageListAddr (localIndex currentCpu)) n (n + 2) m =
      some m := by
    rw [refillLocalPageList]
    simp only [h.local_.count]
    rw [if_neg (by omega)]
  obtain ⟨hpair, hchain, heq⟩ := h.takeFront hi hn hnc hc
  exact ⟨_, _, allocFreePages_eq hstay, hpair, hchain, heq⟩

/-- `alloc_free_pages` on its two lists: `R` is the local list as the refill loop leaves it. -/
theorem ListPair.allocFreePages {m : Memory} {currentCpu c₀ c n : Nat} {G l : List Nat}
    (h : ListPair m (localIndex currentCpu) G l offsetNull c₀ c) (hn : 1 ≤ n)
    (hn' : n ≤ fillLocalPageListMax) (hc : c ≤ l.length)
    (hG : c < n → fillLocalPageListMax ≤ G.length) :
    ∃ p m' G' R c₀' c', Atfs.allocFreePages m currentCpu n =
        some (getNvmPageNodeAddr p, m', (getCpuid currentCpu).2) ∧
      ListPair m' (localIndex currentCpu) G' (R.drop n)
        (if c < n then refilledEnd m l else offsetNull) c₀' c' ∧
      Segment (pageLink m') p (R.take n) offsetNull ∧ n ≤ R.length ∧ c' ≤ (R.drop n).length ∧
      (G' ++ R).Perm (G ++ l) ∧
      Set.EqOn m' m (listBytes (localIndex currentCpu) {p | p ∈ G ++ l})ᶜ ∧
      (c₀ = G.length → c₀' = G'.length) ∧ (c = l.length → c' = (R.drop n).length) := by
  have hi := localIndex_bounds currentCpu
  obtain ⟨m₁, G', R, c₀', c', hrefill, hpair, hnc, hcR, hperm, heq, hcount₀, hcount⟩ :=
    h.refill hi hn hn' hc hG
  obtain ⟨hpair', hchain, heq'⟩ := hpair.takeFront hi hn hnc hcR
  have hpages : {p | p ∈ G' ++ R} = {p | p ∈ G ++ l} := by
    ext p
    exact hperm.mem_iff
  rw [hpages] at heq'
  refine ⟨_, _, G', R, c₀', c' - n, allocFreePages_eq hrefill, hpair', hchain, hnc.trans hcR, ?_,
    hperm, heq'.trans heq, hcount₀, ?_⟩
  · rw [List.length_drop]
    omega
  · intro hlen
    rw [List.length_drop, hcount hlen]

/-- The lists of an allocator with the counts `counts`, which need not be their lengths. -/
structure Linked (m : Memory) (lists : Nat → List Nat) (counts : Nat → Nat) : Prop where
  rep : ∀ i ≤ gCpuNums, ListRep m i (lists i) offsetNull (counts i)
  page : ∀ i ≤ gCpuNums, ∀ p ∈ lists i, IsPage p ∧ ListNode.offset.get m (getNvmPageNodeAddr p) = p
  nodup : ∀ i ≤ gCpuNums, (lists i).Nodup
  disjoint : ∀ i ≤ gCpuNums, ∀ j ≤ gCpuNums, i ≠ j → (lists i).Disjoint (lists j)

theorem WellFormed.linked {m : Memory} {lists : Nat → List Nat} (h : WellFormed m lists) :
    Linked m lists fun i => (lists i).length :=
  ⟨h.rep, h.page, h.nodup, h.disjoint⟩

/-- The two lists of an allocation. -/
theorem Linked.listPair {m : Memory} {lists : Nat → List Nat} {counts : Nat → Nat}
    (h : Linked m lists counts) {i : Nat} (hi : 1 ≤ i ∧ i ≤ gCpuNums) :
    ListPair m i (lists 0) (lists i) offsetNull (counts 0) (counts i) where
  global := h.rep 0 (Nat.zero_le _)
  local_ := h.rep i hi.2
  page := by
    intro p hp
    obtain ⟨hpage, hoff⟩ : IsPage p ∧ ListNode.offset.get m (getNvmPageNodeAddr p) = p := by
      rcases List.mem_append.1 hp with hp | hp
      · exact h.page 0 (Nat.zero_le _) p hp
      · exact h.page i hi.2 p hp
    exact ⟨hpage, by rwa [hpage.getNvmPageNodeAddr_eq] at hoff⟩
  nodup := List.nodup_append'.2 ⟨h.nodup 0 (Nat.zero_le _), h.nodup i hi.2,
    h.disjoint 0 (Nat.zero_le _) i hi.2 (by omega)⟩

theorem WellFormed.listPair {m : Memory} {lists : Nat → List Nat} (h : WellFormed m lists) {i : Nat}
    (hi : 1 ≤ i ∧ i ≤ gCpuNums) :
    ListPair m i (lists 0) (lists i) offsetNull (lists 0).length (lists i).length :=
  h.linked.listPair hi

/-- Replacing the two lists of an allocation. -/
theorem Linked.replace {m m' : Memory} {lists : Nat → List Nat} {counts : Nat → Nat}
    (h : Linked m lists counts) {i : Nat} (hi : 1 ≤ i ∧ i ≤ gCpuNums) {G' l' : List Nat}
    {c₀ c : Nat} (hpair : ListPair m' i G' l' offsetNull c₀ c)
    (hsub : ∀ p ∈ G' ++ l', p ∈ lists 0 ++ lists i)
    (heq : Set.EqOn m' m (listBytes i {p | p ∈ lists 0 ++ lists i})ᶜ) :
    Linked m' (Function.update (Function.update lists 0 G') i l')
      (Function.update (Function.update counts 0 c₀) i c) := by
  have hpages : ∀ q ∈ {p | p ∈ lists 0 ++ lists i}, IsPage q := fun q hq =>
    (h.listPair hi).isPage hq
  have at0 {α : Type} (g : Nat → α) (x y : α) :
      Function.update (Function.update g 0 x) i y 0 = x := by
    rw [Function.update_of_ne (by omega), Function.update_self]
  have ati {α : Type} (g : Nat → α) (x y : α) :
      Function.update (Function.update g 0 x) i y i = y := Function.update_self ..
  have atj {α : Type} (g : Nat → α) (x y : α) {j : Nat} (h1 : j ≠ 0) (h2 : j ≠ i) :
      Function.update (Function.update g 0 x) i y j = g j := by
    rw [Function.update_of_ne h2, Function.update_of_ne h1]
  have h0 := at0 lists G' l'
  have hii := ati lists G' l'
  have hj {j : Nat} (h1 : j ≠ 0) (h2 : j ≠ i) := atj lists G' l' h1 h2
  -- every other list is disjoint from the two, so nothing of it was written
  have other {j : Nat} (hjn : j ≤ gCpuNums) (h1 : j ≠ 0) (h2 : j ≠ i) :
      (lists j).Disjoint (lists 0 ++ lists i) :=
    List.disjoint_append_right.2 ⟨h.disjoint j hjn 0 (Nat.zero_le _) h1, h.disjoint j hjn i hi.2 h2⟩
  have hnodup := List.nodup_append'.1 hpair.nodup
  constructor
  · intro j hjn
    by_cases h1 : j = 0
    · subst h1; rw [h0, at0]; exact hpair.global
    · by_cases h2 : j = i
      · subst h2; rw [hii, ati]; exact hpair.local_
      · rw [hj h1 h2, atj counts c₀ c h1 h2]
        refine (h.rep j hjn).frame (fun p hp => (pageLink_of_eqOn heq hi.2 hpages ?_ ?_).symm)
          (header_get_of_eqOn heq hpages hjn h1 h2 _) (header_get_of_eqOn heq hpages hjn h1 h2 _)
        · exact (h.page j hjn p hp).1
        · exact other hjn h1 h2 hp
  · intro j hjn p hp
    have old : IsPage p ∧ ListNode.offset.get m (getNvmPageNodeAddr p) = p := by
      by_cases h1 : j = 0
      · subst h1
        rw [h0] at hp
        rcases List.mem_append.1 (hsub p (by simp [hp])) with hp | hp
        · exact h.page 0 (Nat.zero_le _) p hp
        · exact h.page i hi.2 p hp
      · by_cases h2 : j = i
        · subst h2
          rw [hii] at hp
          rcases List.mem_append.1 (hsub p (by simp [hp])) with hp | hp
          · exact h.page 0 (Nat.zero_le _) p hp
          · exact h.page j hi.2 p hp
        · rw [hj h1 h2] at hp
          exact h.page j hjn p hp
    refine ⟨old.1, ?_⟩
    have hoff := old.2
    rw [old.1.getNvmPageNodeAddr_eq] at hoff ⊢
    rw [node_get_of_eqOn heq hi.2 hpages old.1 _ (by decide), hoff]
  · intro j hjn
    by_cases h1 : j = 0
    · subst h1; rw [h0]; exact hnodup.1
    · by_cases h2 : j = i
      · subst h2; rw [hii]; exact hnodup.2.1
      · rw [hj h1 h2]; exact h.nodup j hjn
  · intro j hjn k hkn hjk
    have split {j : Nat} (hjn : j ≤ gCpuNums) (h1 : j ≠ 0) (h2 : j ≠ i) {L : List Nat}
        (hL : ∀ p ∈ L, p ∈ G' ++ l') : (lists j).Disjoint L := fun p hp hpL =>
      other hjn h1 h2 hp (hsub p (hL p hpL))
    by_cases j0 : j = 0
    · subst j0
      rw [h0]
      by_cases ki : k = i
      · subst ki; rw [hii]; exact hnodup.2.2
      · rw [hj (Ne.symm hjk) ki]
        exact List.disjoint_symm (split hkn (Ne.symm hjk) ki fun p hp => List.mem_append_left _ hp)
    · by_cases ji : j = i
      · subst ji
        rw [hii]
        by_cases k0 : k = 0
        · subst k0; rw [h0]; exact List.disjoint_symm hnodup.2.2
        · rw [hj k0 (Ne.symm hjk)]
          exact List.disjoint_symm (split hkn k0 (Ne.symm hjk) fun p hp =>
            List.mem_append_right _ hp)
      · rw [hj j0 ji]
        by_cases k0 : k = 0
        · subst k0; rw [h0]; exact split hjn j0 ji fun p hp => List.mem_append_left _ hp
        · by_cases ki : k = i
          · subst ki; rw [hii]; exact split hjn j0 ji fun p hp => List.mem_append_right _ hp
          · rw [hj k0 ki]; exact h.disjoint j hjn k hkn hjk

theorem WellFormed.replace {m m' : Memory} {lists : Nat → List Nat} (h : WellFormed m lists)
    {i : Nat} (hi : 1 ≤ i ∧ i ≤ gCpuNums) {G' l' : List Nat}
    (hpair : ListPair m' i G' l' offsetNull G'.length l'.length)
    (hsub : ∀ p ∈ G' ++ l', p ∈ lists 0 ++ lists i)
    (heq : Set.EqOn m' m (listBytes i {p | p ∈ lists 0 ++ lists i})ᶜ) :
    WellFormed m' (Function.update (Function.update lists 0 G') i l') := by
  obtain ⟨rep, page, nodup, disjoint⟩ := h.linked.replace hi hpair hsub heq
  refine ⟨fun j hj => ?_, page, nodup, disjoint⟩
  have hcount :
      Function.update (Function.update (fun i => (lists i).length) 0 G'.length) i l'.length j =
      (Function.update (Function.update lists 0 G') i l' j).length := by
    by_cases h2 : j = i
    · rw [h2, Function.update_self, Function.update_self]
    · rw [Function.update_of_ne h2, Function.update_of_ne h2]
      by_cases h1 : j = 0
      · rw [h1, Function.update_self, Function.update_self]
      · rw [Function.update_of_ne h1, Function.update_of_ne h1]
  exact hcount ▸ rep j hj

/-- `alloc_free_pages(n)` hands out exactly what it removes: a null-terminated chain of `n`
distinct pages that were free, and the other free pages stay on well-formed lists. -/
def AllocExact (m : Memory) (lists : Nat → List Nat) (currentCpu n : Nat) : Prop :=
  ∃ p chain m' currentCpu' lists',
    allocFreePages m currentCpu n = some (getNvmPageNodeAddr p, m', currentCpu') ∧
    Segment (pageLink m') p chain offsetNull ∧ chain.length = n ∧ chain.Nodup ∧
    (∀ q ∈ chain, q ∈ freeOf lists) ∧ WellFormed m' lists' ∧
    freeOf lists' = freeOf lists \ {q | q ∈ chain}

section Exact

variable {m : Memory} {lists : Nat → List Nat} {currentCpu n : Nat}

/-- An exact allocation of `pages`, with what it writes. -/
structure Taken (m : Memory) (lists : Nat → List Nat) (currentCpu n p : Nat) (pages : List Nat)
    (m' : Memory) (lists' : Nat → List Nat) : Prop where
  alloc : allocFreePages m currentCpu n = some (getNvmPageNodeAddr p, m', (getCpuid currentCpu).2)
  chain : Segment (pageLink m') p pages offsetNull
  length : pages.length = n
  nodup : pages.Nodup
  fresh : ∀ q ∈ pages, q ∈ freeOf lists
  wellFormed : WellFormed m' lists'
  rest : freeOf lists' = freeOf lists \ {q | q ∈ pages}
  frame : Set.EqOn m' m (listBytes (localIndex currentCpu)
    {p | p ∈ lists 0 ++ lists (localIndex currentCpu)})ᶜ

theorem Taken.exact {p : Nat} {pages : List Nat} {m' : Memory} {lists' : Nat → List Nat}
    (h : Taken m lists currentCpu n p pages m' lists') : AllocExact m lists currentCpu n :=
  ⟨p, pages, m', _, lists', h.alloc, h.chain, h.length, h.nodup, h.fresh, h.wellFormed, h.rest⟩

/-- The local list of the final state ends where the refilled list does. -/
theorem WellFormed.end_of_allocExact (h : WellFormed m lists) (hn : 1 ≤ n)
    (hn' : n ≤ maxNumPagePerEntry)
    (hG : (lists (localIndex currentCpu)).length < n → fillLocalPageListMax ≤ (lists 0).length)
    (hx : AllocExact m lists currentCpu n) :
    (if (lists (localIndex currentCpu)).length < n then
      refilledEnd m (lists (localIndex currentCpu)) else offsetNull) = offsetNull := by
  have hi := localIndex_bounds currentCpu
  obtain ⟨p, m', G', R, c₀', c', halloc, hpair, -, -, -, -, -, -, hcount⟩ :=
    (h.listPair hi).allocFreePages hn (hn'.trans (by decide)) le_rfl hG
  obtain ⟨_, _, _, _, lists', halloc', -, -, -, -, hwf, -⟩ := hx
  rw [halloc] at halloc'
  obtain ⟨-, rfl, -⟩ : _ ∧ m' = _ ∧ _ := by simpa using halloc'
  have hrep := hwf.rep _ hi.2
  refine (hpair.local_.chain.unique hrep.chain ?_).2
  rw [← hcount rfl, ← hpair.local_.count]
  exact hrep.count

/-- The free pages when the first `n` pages of the list `R` have been cut off. -/
theorem Linked.freeOf_drop {counts : Nat → Nat} (h : Linked m lists counts) {i : Nat}
    (hi : 1 ≤ i ∧ i ≤ gCpuNums) {G' R : List Nat} (hperm : (G' ++ R).Perm (lists 0 ++ lists i))
    (n : Nat) :
    freeOf (Function.update (Function.update lists 0 G') i (R.drop n)) =
      freeOf lists \ {q | q ∈ R.take n} := by
  have hR := List.nodup_append'.1 (hperm.nodup_iff.2 (h.listPair hi).nodup)
  have hmem (q : Nat) : q ∈ G' ∨ q ∈ R ↔ q ∈ lists 0 ∨ q ∈ lists i := by
    simpa using hperm.mem_iff (a := q)
  have two {q : Nat} (hq : q ∈ lists 0 ∨ q ∈ lists i) : q ∈ freeOf lists := by
    rcases hq with hq | hq
    · exact ⟨0, Nat.zero_le _, hq⟩
    · exact ⟨i, hi.2, hq⟩
  ext q
  have htd : q ∈ R ↔ q ∈ R.take n ∨ q ∈ R.drop n := by
    rw [← List.mem_append, List.take_append_drop]
  have hdisj : q ∈ R.take n → q ∉ R.drop n := fun h1 h2 =>
    List.disjoint_take_drop hR.2.1 le_rfl h1 h2
  have hnew : q ∈ freeOf (Function.update (Function.update lists 0 G') i (R.drop n)) ↔
      q ∈ G' ∨ q ∈ R.drop n ∨ ∃ j ≤ gCpuNums, j ≠ 0 ∧ j ≠ i ∧ q ∈ lists j := by
    have hi0 : (0 : Nat) ≠ i := by omega
    constructor
    · rintro ⟨j, hj, hq⟩
      by_cases ji : j = i
      · subst ji; rw [Function.update_self] at hq; exact .inr (.inl hq)
      · rw [Function.update_of_ne ji] at hq
        by_cases j0 : j = 0
        · subst j0; rw [Function.update_self] at hq; exact .inl hq
        · rw [Function.update_of_ne j0] at hq; exact .inr (.inr ⟨j, hj, j0, ji, hq⟩)
    · rintro (hq | hq | ⟨j, hj, j0, ji, hq⟩)
      · exact ⟨0, Nat.zero_le _, by rwa [Function.update_of_ne hi0, Function.update_self]⟩
      · exact ⟨i, hi.2, by rwa [Function.update_self]⟩
      · exact ⟨j, hj, by rwa [Function.update_of_ne ji, Function.update_of_ne j0]⟩
  have hother {j : Nat} (hj : j ≤ gCpuNums) (j0 : j ≠ 0) (ji : j ≠ i) (hq : q ∈ lists j) :
      q ∉ R := fun hc => by
    rcases (hmem q).1 (.inr hc) with hc | hc
    · exact h.disjoint j hj 0 (Nat.zero_le _) j0 hq hc
    · exact h.disjoint j hj i hi.2 ji hq hc
  rw [hnew]
  constructor
  · rintro (hq | hq | ⟨j, hj, j0, ji, hq⟩)
    · exact ⟨two ((hmem q).1 (.inl hq)), fun hc => hR.2.2 hq (List.mem_of_mem_take hc)⟩
    · exact ⟨two ((hmem q).1 (.inr (htd.2 (.inr hq)))), fun hc => hdisj hc hq⟩
    · exact ⟨⟨j, hj, hq⟩, fun hc => hother hj j0 ji hq (List.mem_of_mem_take hc)⟩
  · rintro ⟨⟨j, hj, hq⟩, hc⟩
    by_cases hji : j = 0 ∨ j = i
    · have hq' : q ∈ lists 0 ∨ q ∈ lists i := by
        rcases hji with rfl | rfl
        · exact .inl hq
        · exact .inr hq
      rcases (hmem q).2 hq' with hq | hq
      · exact .inl hq
      · exact .inr (.inl ((htd.1 hq).resolve_left hc))
    · exact .inr (.inr ⟨j, hj, fun e => hji (.inl e), fun e => hji (.inr e), hq⟩)

/-- Once the local list is long enough, cutting its front is exact. -/
theorem WellFormed.take (h : WellFormed m lists) (hn : 1 ≤ n) {m₁ : Memory} {G' R : List Nat}
    (hrefill : refillLocalPageList (getLocalPageListAddr (localIndex currentCpu)) n
      (n + 2) m = some m₁)
    (hpair₁ : ListPair m₁ (localIndex currentCpu) G' R offsetNull G'.length R.length)
    (hnR : n ≤ R.length) (hperm : (G' ++ R).Perm (lists 0 ++ lists (localIndex currentCpu)))
    (heq₁ : Set.EqOn m₁ m (listBytes (localIndex currentCpu)
      {p | p ∈ lists 0 ++ lists (localIndex currentCpu)})ᶜ) :
    ∃ p m' lists', Taken m lists currentCpu n p (R.take n) m' lists' := by
  have hi := localIndex_bounds currentCpu
  obtain ⟨hpair, hchain, heq₂⟩ := hpair₁.takeFront hi hn hnR le_rfl
  have hpages : {p | p ∈ G' ++ R} = {p | p ∈ lists 0 ++ lists (localIndex currentCpu)} :=
    Set.ext fun p => hperm.mem_iff
  rw [hpages] at heq₂
  rw [← List.length_drop] at hpair
  have heq := heq₂.trans heq₁
  have hR := List.nodup_append'.1 (hperm.nodup_iff.2 (h.listPair hi).nodup)
  refine ⟨_, _, _, allocFreePages_eq hrefill, hchain, ?_,
    hR.2.1.sublist (List.take_sublist n R), ?_, h.replace hi hpair (fun q hq => ?_) heq,
    h.linked.freeOf_drop hi hperm n, heq⟩
  · rw [List.length_take]
    omega
  · intro q hq
    have hq' := hperm.mem_iff.1 (List.mem_append_right G' (List.mem_of_mem_take hq))
    rcases List.mem_append.1 hq' with hq' | hq'
    · exact ⟨0, Nat.zero_le _, hq'⟩
    · exact ⟨_, hi.2, hq'⟩
  · refine hperm.mem_iff.1 ?_
    rcases List.mem_append.1 hq with hq | hq
    · exact List.mem_append_left _ hq
    · exact List.mem_append_right _ (List.mem_of_mem_drop hq)

theorem WellFormed.allocExact (h : WellFormed m lists) (hn : 1 ≤ n) (hn' : n ≤ maxNumPagePerEntry)
    (hG : (lists (localIndex currentCpu)).length < n → fillLocalPageListMax ≤ (lists 0).length)
    (hend : (if (lists (localIndex currentCpu)).length < n then
      refilledEnd m (lists (localIndex currentCpu)) else offsetNull) = offsetNull) :
    AllocExact m lists currentCpu n := by
  have hi := localIndex_bounds currentCpu
  obtain ⟨m₁, G', R, c₀', c', hrefill, hpair, hnc, -, hperm, heq, hcount₀, hcount⟩ :=
    (h.listPair hi).refill hi hn (hn'.trans (by decide)) le_rfl hG
  obtain rfl := hcount₀ rfl
  obtain rfl := hcount rfl
  rw [hend] at hpair
  obtain ⟨p, m', lists', htaken⟩ := h.take hn hrefill hpair hnc hperm heq
  exact htaken.exact

/-- Any number of pages is handed out exactly, refilled as often as it takes. -/
theorem WellFormed.taken (h : WellFormed m lists) (hn : 1 ≤ n) (k : Nat) (hk : k ≤ n + 1)
    (hkn : n ≤ (lists (localIndex currentCpu)).length + fillLocalPageListMax * k)
    (hG : fillLocalPageListMax * k ≤ (lists 0).length)
    (hend : (lists (localIndex currentCpu)).length < n →
      (lists (localIndex currentCpu)).length = 1 → nullNodeOffset m = offsetNull) :
    ∃ p chain m' lists', Taken m lists currentCpu n p chain m' lists' := by
  have hi := localIndex_bounds currentCpu
  obtain ⟨m₁, G', R, hrefill, hpair, hnR, hperm, heq⟩ :=
    (h.listPair hi).refillAll hi hn k (n + 2) hkn (by omega) hG hend
  obtain ⟨p, m', lists', htaken⟩ := h.take hn hrefill hpair hnR hperm heq
  exact ⟨p, _, m', lists', htaken⟩

/-- An allocation is exact unless it refills a local list of a single page: then the
refill links the new pages to the `offset` word of a node that does not exist. -/
theorem allocFreePages_exact_iff (h : WellFormed m lists) (currentCpu : Nat) (hn : 1 ≤ n)
    (hn' : n ≤ maxNumPagePerEntry)
    (hG : (lists (localIndex currentCpu)).length < n → fillLocalPageListMax ≤ (lists 0).length) :
    AllocExact m lists currentCpu n ↔
      ((lists (localIndex currentCpu)).length = 1 → n = 1 ∨ nullNodeOffset m = offsetNull) := by
  have hend : (if (lists (localIndex currentCpu)).length < n then
      refilledEnd m (lists (localIndex currentCpu)) else offsetNull) = offsetNull ↔
      ((lists (localIndex currentCpu)).length = 1 → n = 1 ∨ nullNodeOffset m = offsetNull) := by
    rw [refilledEnd]
    split_ifs with h1 h2
    · simp only [h2, true_imp_iff]
      constructor
      · exact .inr
      · rintro (hn1 | hnull)
        · omega
        · exact hnull
    · simp [h2]
    · simp only [true_iff]
      intro h2
      omega
  rw [← hend]
  exact ⟨h.end_of_allocExact hn hn' hG, h.allocExact hn hn' hG⟩

end Exact

/-- Every local list holds a single page, the global list the pages of one refill. -/
theorem singlePage_wellFormed (body : Nat → Nat → UInt8) :
    WellFormed (freeImage 512 1 body).mem (freeLists 512 1) :=
  freeImage_wellFormed le_rfl (by rw [nvmFreeNumPages_eq, gCpuNums]; omega)

theorem allocFreePages_exact_iff_one :
    AllocExact (freeImage 512 1 fun _ _ => 0).mem (freeLists 512 1) 0 1 :=
  (allocFreePages_exact_iff (singlePage_wellFormed _) 0 le_rfl (by decide) fun _ => by
    rw [freeLists_zero, length_pageRun]
    rfl).2 fun _ => .inl rfl

/-- Asking for two pages refills the one-page list, and the end of the list is lost. -/
theorem allocFreePages_not_exact :
    ¬ AllocExact (freeImage 512 1 fun _ _ => 0).mem (freeLists 512 1) 0 2 := by
  intro hx
  have hlen : (freeLists 512 1 (localIndex 0)).length = 1 := length_freeLists (by decide)
  have hend := (singlePage_wellFormed fun _ _ => 0).end_of_allocExact (by omega) (by decide)
    (fun _ => by rw [freeLists_zero, length_pageRun]; rfl) hx
  rw [hlen, if_pos (by omega), refilledEnd, if_pos hlen, Image.nullNodeOffset_mem] at hend
  exact absurd hend (by decide)

end Atfs
