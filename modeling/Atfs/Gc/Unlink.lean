import Atfs.Gc.Release
import Atfs.Inode.Basic

/-!
# Taking log pages out of the log

`start_gc_task` unlinks a log page by the link of the page before it, or by the head of the log if
there is none. `gc_log_block` then appends to the same log and hands the page back.
-/

namespace Atfs

open ByteMemory LinkedChain MarkRuns

section Relink

variable {A : PageAllocator} {m m' : Memory} {head head' : Nat} {f : Frontier}
  {L L' K R : List LogPage} {last P Q : LogPage} {V : Set Nat}

theorem Frontier.Holds.of_inUse (h : f.Holds A m) (hm : ChangesOnly V m m')
    (hV : ∀ a ∈ V, ∃ q, IsPage q ∧ q ∉ f.free ∧ a ∈ pageBytes q) : f.Holds A m' :=
  { h with rep := A.rep_congr h.rep (eqOn_of_inUse (A.rep_page h.rep) hm hV) }

/-- The pages of a log are unchanged but for their links. -/
theorem LogRep.rep_congr (h : LogRep m head f L last)
    (hm : ChangesOnly (linkBytesOf {q | q ∈ (L ++ [last]).map (·.page)} ∪ V) m m')
    (hV : ∀ q ∈ owned (L ++ [last]), Disjoint V (pageBytes q)) :
    ∀ P ∈ L ++ [last], P.Rep m' := by
  intro P hP
  have hout {q a : Nat} (hq : q ∈ P.own) (ha : a ∈ pageBytes q)
      (hlink : ∀ Q ∈ L ++ [last], a ∉ linkBytes Q.page) : m' a = m a := by
    refine hm a ?_
    rintro (⟨p, hp, hc⟩ | hc)
    · obtain ⟨Q, hQ, rfl⟩ := List.mem_map.1 hp
      exact hlink Q hQ hc
    · exact Set.disjoint_left.1 (hV q (mem_owned.2 ⟨P, hP, hq⟩)) hc ha
  have hown := (h.rep P hP).isPage_own
  refine (h.rep P hP).congr_link (fun a ha => hout List.mem_cons_self ha.1 fun Q hQ hc => ?_)
    fun q hq a ha => hout (List.mem_cons_of_mem _ hq) ha fun Q hQ hc => ?_
  · by_cases hQP : Q.page = P.page
    · exact ha.2 (hQP ▸ hc)
    · have := (h.rep Q hQ).isPage.apart (h.rep P hP).isPage hQP
      have ha := ha.1
      rw [mem_linkBytes] at hc
      rw [mem_pageBytes] at ha
      omega
  · have hne : Q.page ≠ q := fun hc => page_notMem_pagesOf h.nodup hQ hP (hc ▸ hq)
    have := (h.rep Q hQ).isPage.apart (hown q (List.mem_cons_of_mem _ hq)) hne
    rw [mem_linkBytes] at hc
    rw [mem_pageBytes] at ha
    omega

/-- A log whose pages are linked anew, and some of them left out. -/
theorem LogRep.relink (h : LogRep m head f L last)
    (hm : ChangesOnly (linkBytesOf {q | q ∈ (L ++ [last]).map (·.page)} ∪ V) m m')
    (hV : ∀ q ∈ owned (L ++ [last]), Disjoint V (pageBytes q)) (hsub : L'.Sublist L)
    (hchain : Segment (pageLink m') head' (L'.map (·.page)) last.page) :
    LogRep m' head' f L' last where
  chain := hchain
  rep := fun P hP => h.rep_congr hm hV P ((hsub.append_right _).subset hP)
  page := h.page
  tail := h.tail
  nodup := (owned_sublist (hsub.append_right _)).nodup h.nodup
  inUse := fun q hq => h.inUse q ((owned_sublist (hsub.append_right _)).subset hq)

end Relink

/-! ## The log of an inode -/

/-- The log of the inode in page `r`: the pages `L` and then `last`. -/
structure LogOf (A : PageAllocator) (inode r : Nat) (m : Memory) (f : Frontier) (L : List LogPage)
    (last : LogPage) : Prop where
  holds : f.Holds A m
  log : LogRep m (AtfsInode.logHead.get m inode) f L last
  tail : AtfsInode.logTail.get m inode = f.tail
  inodeIn : InodeIn inode r
  inUse : r ∉ f.free
  apart : r ∉ owned (L ++ [last])

/-- What may change while the log is collected. -/
def logBytes (f : Frontier) (inode : Nat) (X : List Nat) : Set Nat :=
  metadata ∪ bytesOf (f.free ∪ {q | q ∈ X}) ∪ inodeBytes inode

/-- The page behind the pages `L` of a log, or the first of them. -/
def headPage (L : List LogPage) (next : Nat) : Nat := (L.map (·.page)).headD next

@[simp] theorem headPage_nil (next : Nat) : headPage [] next = next := rfl

@[simp] theorem headPage_cons (P : LogPage) (L : List LogPage) (next : Nat) :
    headPage (P :: L) next = P.page := rfl

theorem headPage_append (L L' : List LogPage) (next : Nat) :
    headPage (L ++ L') next = headPage L (headPage L' next) := by
  cases L with
  | nil => rfl
  | cons P L => rfl

theorem headPage_of_segment {g : Nat → Nat} {p next : Nat} {L : List LogPage}
    (h : Segment g p (L.map (·.page)) next) : p = headPage L next := by
  cases L with
  | nil => exact h
  | cons P L => exact h.1

/-- Redirect the link in front of a log page. -/
def redirectLink (m : Memory) (inode prevPage pageHead next : Nat) : Memory :=
  if pageHead = AtfsInode.logHead.get m inode then AtfsInode.logHead.set m inode next
  else ListNode.nextOffset.set m (getNvmPageNodeAddr prevPage) next

section Unlink

variable {A : PageAllocator} {inode r prev : Nat} {m m' : Memory} {f : Frontier}
  {K L R : List LogPage} {last P Q : LogPage}

/-- The link of a log page leads to the page behind it. -/
theorem LogRep.pageLink_eq {head : Nat} (h : LogRep m head f (K ++ P :: R) last) :
    pageLink m P.page = headPage R last.page := by
  have hchain := h.chain
  rw [List.map_append, List.map_cons] at hchain
  obtain ⟨p, -, hright⟩ := segment_append.1 hchain
  exact headPage_of_segment (segment_cons.1 hright).2

theorem LogOf.isPage (h : LogOf A inode r m f L last) (hP : P ∈ L ++ [last]) : IsPage P.page :=
  (h.log.rep P hP).isPage

theorem LogOf.owned_page (h : LogOf A inode r m f L last) {q : Nat} (hq : q ∈ owned (L ++ [last])) :
    IsPage q ∧ q ∉ f.free ∧ q ≠ r := by
  obtain ⟨Q, hQ, hqQ⟩ := mem_owned.1 hq
  refine ⟨(h.log.rep Q hQ).isPage_own q hqQ, h.log.inUse q hq, ?_⟩
  rintro rfl
  exact h.apart hq

theorem LogOf.disjoint_inode (h : LogOf A inode r m f L last) :
    ∀ q ∈ owned (L ++ [last]), Disjoint (inodeBytes inode) (pageBytes q) := fun _ hq =>
  h.inodeIn.disjoint_page (h.owned_page hq).1 (h.owned_page hq).2.2

theorem mem_owned_page (hP : P ∈ L) : P.page ∈ owned L := mem_owned.2 ⟨P, hP, List.mem_cons_self⟩

/-- The words of the inode do not lie in a log page. -/
theorem LogOf.get_set_link (h : LogOf A inode r m f L last) (hP : P ∈ L ++ [last]) (g : Field 216)
    (m₁ : Memory) (v : Nat) :
    g.get (ListNode.nextOffset.set m₁ (P.page + 4096) v) inode = g.get m₁ inode := by
  refine Field.get_congr fun a ha => changesOnly_setLink m₁ P.page v a fun hc => ?_
  refine Set.disjoint_left.1 (h.disjoint_inode P.page (mem_owned_page hP))
    (show a ∈ inodeBytes inode from ?_) ?_
  · have := g.fits
    rw [Field.bytes, Set.mem_Ico] at ha
    rw [inodeBytes, Set.mem_Ico]
    omega
  · rw [mem_linkBytes] at hc
    rw [mem_pageBytes]
    omega

/-- Nor do the links lie in the inode. -/
theorem LogOf.pageLink_setWord (h : LogOf A inode r m f L last) (hP : P ∈ L ++ [last])
    (g : Field 216) (v : Nat) : pageLink (g.set m inode v) P.page = pageLink m P.page := by
  refine (h.isPage hP).pageLink_congr fun a ha => AtfsInode.changesOnly g m inode v a fun hc => ?_
  refine Set.disjoint_left.1 (h.disjoint_inode P.page (mem_owned_page hP)) hc ?_
  rw [Set.mem_Ico] at ha
  rw [mem_pageBytes]
  omega

/-- The log after its links and its head have been set. -/
theorem LogOf.relink (h : LogOf A inode r m f L last)
    (hm : ChangesOnly (linkBytesOf {q | q ∈ (L ++ [last]).map (·.page)} ∪ inodeBytes inode) m m')
    (hsub : K.Sublist L) (htail : AtfsInode.logTail.get m' inode = AtfsInode.logTail.get m inode)
    (hchain : Segment (pageLink m') (AtfsInode.logHead.get m' inode) (K.map (·.page)) last.page) :
    LogOf A inode r m' f K last where
  holds := h.holds.of_inUse hm fun a ha => by
    rcases ha with ⟨q, hq, ha⟩ | ha
    · obtain ⟨Q, hQ, rfl⟩ := List.mem_map.1 hq
      obtain ⟨hpage, hfree, -⟩ := h.owned_page (mem_owned_page hQ)
      refine ⟨Q.page, hpage, hfree, ?_⟩
      rw [mem_linkBytes] at ha
      rw [mem_pageBytes]
      omega
    · obtain ⟨hr, hle, hle'⟩ := h.inodeIn
      refine ⟨r, hr, h.inUse, ?_⟩
      rw [inodeBytes, Set.mem_Ico] at ha
      rw [show sizeofAtfsInode = 216 from rfl] at hle'
      rw [mem_pageBytes]
      omega
  log := h.log.relink hm h.disjoint_inode hsub hchain
  tail := htail.trans h.tail
  inodeIn := h.inodeIn
  inUse := h.inUse
  apart := fun hc => h.apart ((owned_sublist (hsub.append_right _)).subset hc)

/-- Redirecting the link in front of a page leaves a log without it. -/
theorem LogOf.redirect (h : LogOf A inode r m f (K ++ P :: R) last)
    (hprev : ∀ Q, K.getLast? = some Q → prev = Q.page)
    (hm' : redirectLink m inode prev P.page (headPage R last.page) = m') :
    LogOf A inode r m' f (K ++ R) last ∧ pageLink m' P.page = headPage R last.page ∧
      ChangesOnly (linkBytesOf {q | q ∈ (K ++ P :: R ++ [last]).map (·.page)} ∪ inodeBytes inode)
        m m' := by
  have hlink := h.log.pageLink_eq
  have hpages := (pages_sublist_owned _).nodup h.log.nodup
  have hsub : (K ++ R).Sublist (K ++ P :: R) := (List.sublist_cons_self P R).append_left K
  have hchain := h.log.chain
  have hlt : headPage R last.page < 2 ^ 64 := hlink ▸ pageLink_lt m P.page
  rcases List.eq_nil_or_concat' K with rfl | ⟨K, Q, rfl⟩
  · -- the page is the first of the log
    rw [List.nil_append, List.map_cons] at hchain
    rw [redirectLink, if_pos hchain.head_eq.symm] at hm'
    have hchange : ChangesOnly (inodeBytes inode) m m' := hm' ▸ AtfsInode.changesOnly _ _ _ _
    have hkeep {Q : LogPage} (hQ : Q ∈ P :: R ++ [last]) : pageLink m' Q.page = pageLink m Q.page :=
      hm' ▸ h.pageLink_setWord hQ AtfsInode.logHead _
    have hchange' : ChangesOnly (linkBytesOf
        {q | q ∈ (([] : List LogPage) ++ P :: R ++ [last]).map (·.page)} ∪ inodeBytes inode) m m' :=
      hchange.mono Set.subset_union_right
    refine ⟨h.relink hchange' hsub ?_ ?_, (hkeep (by simp)).trans hlink, hchange'⟩
    · rw [← hm']
      exact Field.get_set_of_disjoint _ _ _ (by simp)
    · rw [← hm', Field.get_set_self_of_lt _ _ hlt, hm', ← hlink]
      refine (segment_cons.1 hchain).2.congr fun q hq => ?_
      obtain ⟨Q, hQ, rfl⟩ := List.mem_map.1 hq
      exact (hkeep (by simp [hQ])).symm
  · -- the page behind `Q`
    have hQ : Q ∈ K ++ [Q] ++ P :: R ++ [last] := by simp
    have hQpage := h.isPage hQ
    obtain rfl := hprev Q (by simp)
    simp only [List.map_append, List.map_cons, List.map_nil, List.append_assoc, List.cons_append,
      List.nil_append, List.nodup_append, List.nodup_cons, List.mem_append, List.mem_cons] at hpages
    have hne : P.page ≠ Q.page := fun hc => hpages.2.1.1 (.inl hc.symm)
    have hhead : P.page ≠ AtfsInode.logHead.get m inode := by
      rw [List.map_append, List.map_append] at hchain
      obtain ⟨p, hleft, -⟩ := segment_append.1 hchain
      rintro heq
      rw [← heq] at hleft
      cases K with
      | nil => exact hne hleft.1
      | cons Q' K => exact hpages.2.2 Q'.page (by simp) P.page (by simp) hleft.1.symm
    rw [redirectLink, if_neg hhead, hQpage.getNvmPageNodeAddr_eq] at hm'
    have hchange : ChangesOnly (linkBytes Q.page) m m' := hm' ▸ changesOnly_setLink m _ _
    have hchange' : ChangesOnly (linkBytesOf {q | q ∈ (K ++ [Q] ++ P :: R ++ [last]).map (·.page)} ∪
        inodeBytes inode) m m' :=
      hchange.mono fun a ha => .inl ⟨Q.page, List.mem_map.2 ⟨Q, hQ, rfl⟩, ha⟩
    have hkeep {q : Nat} (hq : IsPage q) :
        pageLink m' q = Function.update (pageLink m) Q.page (pageLink m P.page) q := by
      rw [← hm', hlink]
      exact hq.pageLink_set hQpage hlt m
    refine ⟨h.relink hchange' hsub ?_ ?_, ?_, hchange'⟩
    · rw [← hm']
      exact h.get_set_link hQ _ _ _
    · rw [← hm', h.get_set_link hQ, hm']
      rw [List.map_append, List.map_append, List.map_cons, List.map_cons, List.map_nil] at hchain
      rw [List.map_append, List.map_append, List.map_cons, List.map_nil]
      refine (hchain.remove ?_ ?_).congr fun q hq => (hkeep ?_).symm
      · exact fun hc => hpages.2.2 _ hc _ (by simp) rfl
      · exact fun hc => hpages.2.1.1 (.inr (.inl hc))
      · have hq' : q ∈ (K ++ [Q] ++ R).map (·.page) := by simpa using hq
        obtain ⟨X, hX, rfl⟩ := List.mem_map.1 hq'
        exact h.isPage (List.mem_append_left _ (hsub.subset hX))
    · rw [hkeep (h.isPage (by simp)), Function.update_of_ne hne]
      exact hlink

theorem owned_middle (K R : List LogPage) (P : LogPage) :
    (owned (K ++ P :: R)).Perm (P.own ++ owned (K ++ R)) := by
  rw [owned_append, owned_append, owned_cons]
  exact List.perm_append_comm_assoc _ _ _

/-- Unlinking a page leaves a log without it, and the page alone. -/
theorem LogOf.unlink (h : LogOf A inode r m f (K ++ P :: R) last)
    (hprev : ∀ Q, K.getLast? = some Q → prev = Q.page) :
    ∃ m', unlinkLogPage m inode prev P.page = (headPage R last.page, m') ∧
      LogOf A inode r m' f (K ++ R) last ∧ Detached A f m' P ∧
      (∀ q ∈ P.own, q ∉ owned (K ++ R ++ [last]) ∧ q ≠ r) ∧
      ChangesOnly (linkBytesOf {q | q ∈ (K ++ P :: R ++ [last]).map (·.page)} ∪ inodeBytes inode)
        m m' := by
  have hPmem : P ∈ K ++ P :: R ++ [last] := by simp
  have hP := h.isPage hPmem
  have hsub : (K ++ R).Sublist (K ++ P :: R) := (List.sublist_cons_self P R).append_left K
  obtain ⟨m₁, hm₁⟩ : ∃ m₁, redirectLink m inode prev P.page (headPage R last.page) = m₁ := ⟨_, rfl⟩
  obtain ⟨h₁, hlink₁, hchange₁⟩ := h.redirect hprev hm₁
  have hperm := owned_middle K (R ++ [last]) P
  rw [← List.cons_append, ← List.append_assoc, ← List.append_assoc] at hperm
  have hsplit := List.nodup_append'.1 (hperm.nodup_iff.1 h.log.nodup)
  have hPpages : P.page ∉ (K ++ R).map (·.page) := by
    intro hc
    refine hsplit.2.2 List.mem_cons_self ?_
    rw [owned_append]
    exact List.mem_append_left _ ((pages_sublist_owned _).subset hc)
  have hchange : ChangesOnly (linkBytesOf {q | q ∈ (K ++ P :: R ++ [last]).map (·.page)} ∪
      inodeBytes inode) m (ListNode.nextOffset.set m₁ (P.page + 4096) offsetNull) :=
    hchange₁.trans ((changesOnly_setLink m₁ P.page offsetNull).mono fun a ha =>
      .inl ⟨P.page, List.mem_map.2 ⟨P, hPmem, rfl⟩, ha⟩)
  have hset {q : Nat} (hq : IsPage q) :
    pageLink (ListNode.nextOffset.set m₁ (P.page + 4096) offsetNull) q =
      Function.update (pageLink m₁) P.page offsetNull q := hq.pageLink_set hP (by decide) m₁
  have hlog : LogOf A inode r (ListNode.nextOffset.set m₁ (P.page + 4096) offsetNull) f
      (K ++ R) last := by
    refine h.relink hchange hsub ?_ ?_
    · rw [h.get_set_link hPmem, h₁.tail, h.tail]
    · rw [h.get_set_link hPmem]
      refine (h₁.log.chain.update (y := offsetNull) hPpages).congr fun q hq => (hset ?_).symm
      obtain ⟨Q, hQ, rfl⟩ := List.mem_map.1 hq
      exact h₁.isPage (List.mem_append_left _ hQ)
  refine ⟨_, ?_, hlog, ⟨hlog.holds, h.log.rep_congr hchange h.disjoint_inode P hPmem, ?_, hsplit.1,
    fun q hq => ⟨h.log.inUse q (mem_owned.2 ⟨P, hPmem, hq⟩), ?_⟩⟩,
    fun q hq => ⟨hsplit.2.2 hq, ?_⟩, hchange⟩
  · have hnext := (hP.pageLink_eq m).symm.trans h.log.pageLink_eq
    rw [unlinkLogPage]
    simp only [hP.getNvmPageNodeAddr_eq, hnext]
    rw [redirectLink] at hm₁
    rw [hm₁, ← hP.pageLink_eq, hlink₁]
  · rw [hset hP, Function.update_self]
  · rintro rfl
    refine hsplit.2.2 hq ?_
    rw [h.log.page]
    exact mem_owned_page (by simp)
  · exact (h.owned_page (mem_owned.2 ⟨P, hPmem, hq⟩)).2.2

end Unlink

end Atfs
