import Atfs.Gc.Ledger
import Atfs.Gc.Unlink
import Atfs.Log.Joined

/-!
# The collector on a log

The loop of `start_gc_task` keeps the pages that are not selected, in their order, and the log pages
that it opens on the way stand behind the last page of the log. A page that is selected is handed
back once, and can only be opened again afterwards.
-/

namespace Atfs

open ByteMemory LinkedChain MarkRuns

/-! ## Pages opened -/

/-- The page that has become the last of a log. -/
def Event.page? : Event → Option Nat
  | .logPage p => some p
  | _ => none

/-- The pages that have become the last of a log, the oldest first. -/
def openedPages (trace : List Event) : List Nat := (trace.filterMap Event.page?).reverse

theorem openedPages_append (new old : List Event) :
    openedPages (new ++ old) = openedPages old ++ openedPages new := by
  simp [openedPages]

theorem mem_openedPages {trace : List Event} {p : Nat} :
    p ∈ openedPages trace ↔ .logPage p ∈ trace := by
  simp only [openedPages, List.mem_reverse, List.mem_filterMap]
  constructor
  · rintro ⟨ev, hev, heq⟩
    cases ev with
    | logPage q =>
      obtain rfl : q = p := by simpa [Event.page?] using heq
      exact hev
    | alloc | free | logEntry => simp [Event.page?] at heq
  · exact fun h => ⟨_, h, rfl⟩

theorem length_openedPages (trace : List Event) : (openedPages trace).length =
    pagesOpened trace := by
  induction trace with
  | nil => rfl
  | cons ev trace ih =>
    rw [← List.singleton_append, openedPages_append, List.length_append, ih]
    cases ev <;> simp [openedPages, pagesOpened, Event.page?, Event.opened, Nat.add_comm]

/-! ## Entries that stay -/

/-- The pages `Ps` are among the pages `Qs`, with all their entries. -/
def Carried (Ps Qs : List LogPage) : Prop := ∀ P ∈ Ps, ∃ Q ∈ Qs, Q.page = P.page ∧
    P.entries ⊆ Q.entries

/-- Every valid page of an entry on `P` is a page of an entry on another page of `Qs`, in which no
page is marked. -/
def MovedTo (P : LogPage) (Qs : List LogPage) : Prop :=
  ∀ E ∈ P.entries, ∀ i q, E.pages[i]? = some q → E.invalid i = false →
    ∃ Q ∈ Qs, Q.page ≠ P.page ∧ ∃ N ∈ Q.entries, q ∈ N.pages ∧ N.bitmap = 0

section Carried

variable {P : LogPage} {Ps Qs Rs : List LogPage}

theorem Carried.of_subset (h : Ps ⊆ Qs) : Carried Ps Qs :=
    fun P hP => ⟨P, h hP, rfl, List.Subset.refl _⟩

theorem Carried.trans (h : Carried Ps Qs) (h' : Carried Qs Rs) : Carried Ps Rs := by
  intro P hP
  obtain ⟨Q, hQ, hpage, hsub⟩ := h P hP
  obtain ⟨Q', hQ', hpage', hsub'⟩ := h' Q hQ
  exact ⟨Q', hQ', hpage'.trans hpage, fun E hE => hsub' (hsub hE)⟩

theorem Carried.append_left (Ps : List LogPage) (h : Carried Qs Rs) :
    Carried (Ps ++ Qs) (Ps ++ Rs) := by
  intro P hP
  rcases List.mem_append.1 hP with hP | hP
  · exact ⟨P, List.mem_append_left _ hP, rfl, List.Subset.refl _⟩
  · obtain ⟨Q, hQ, hQ'⟩ := h P hP
    exact ⟨Q, List.mem_append_right _ hQ, hQ'⟩

theorem MovedTo.carried (h : MovedTo P Qs) (h' : Carried Qs Rs) : MovedTo P Rs := by
  intro E hE i q hq hbit
  obtain ⟨Q, hQ, hne, N, hN, hN'⟩ := h E hE i q hq hbit
  obtain ⟨Q', hQ', hpage, hsub⟩ := h' Q hQ
  exact ⟨Q', hQ', hpage ▸ hne, N, hsub hN, hN'⟩

end Carried

section Opened

variable {A : PageAllocator} {X : Set Nat} {f f' : Frontier} {m m' : Memory} {head : Nat}
  {L L' : List LogPage} {last last' : LogPage} {es : List LogEntry} {evs : List Event}
  {E : LogEntry}

theorem Extends.mem_owned (h : Extends L last E L' last' evs) {q : Nat}
    (hq : q ∈ owned (L' ++ [last'])) :
    q ∈ owned (L ++ [last]) ∨ q ∈ E.pages ∨ q ∈ openedPages evs := by
  rcases h with ⟨rfl, rfl, -⟩ | ⟨rfl, rfl, rfl⟩
  · simp only [owned_append, owned_cons, owned_nil, List.append_nil, LogPage.own, pagesOf_append,
      pagesOf_cons, pagesOf_nil, List.mem_append, List.mem_cons] at hq ⊢
    tauto
  · simp only [owned_append, owned_cons, owned_nil, List.append_nil, LogPage.own, pagesOf_cons,
      pagesOf_nil, List.mem_append, List.mem_cons, mem_openedPages] at hq ⊢
    tauto

/-- A log to which an entry has been appended has evolved. -/
theorem Extends.evolves {evs' : List Event} {L₁ : List LogPage} {last₁ : LogPage} {f₁ : Frontier}
    (hE : Extends L₁ last₁ E L' last' evs') (hL : LogRep m head f₁ L' last')
    (h : Evolves L last L₁ last₁ evs) : Evolves L last L' last' (evs' ++ evs) := by
  refine h.extend hE ((hL.rep last' (by simp)).logPageOff_eq ?_)
    ((pages_sublist_owned _).nodup hL.nodup)
  rcases hE with ⟨-, rfl, -⟩ | ⟨-, rfl, -⟩ <;> simp

/-- How the log evolves while entries are appended. -/
theorem Appends.evolves (h : Appends A X f m f' m' es evs) (hf : f.Holds A m) (hX : Held f X)
    (hL : LogRep m head f L last) (hdisj : ∀ q ∈ X, q ∉ owned (L ++ [last]))
    (hsub : ∀ q ∈ pagesOf es, q ∈ X) (hnodup : (pagesOf es).Nodup) :
    ∃ Z last', LogRep m' head f' (L ++ Z) last' ∧ Evolves L last (L ++ Z) last' evs ∧
      (es = [] → Z = [] ∧ last' = last) ∧ Carried [last] (Z ++ [last']) ∧
      (∀ N ∈ es, ∃ Q ∈ Z ++ [last'], N ∈ Q.entries) ∧ entriesIn (Z ++ [last']) =
      last.entries ++ es ∧
      (Z ++ [last']).map (·.page) = last.page :: openedPages evs ∧
      (∀ q ∈ owned (L ++ Z ++ [last']),
        q ∈ owned (L ++ [last]) ∨ q ∈ pagesOf es ∨ q ∈ openedPages evs) ∧
      ∀ q ∈ openedPages evs, q ∈ f.free := by
  induction h with
  | nil =>
    have hL' : LogRep m head f (L ++ []) last := by rwa [List.append_nil]
    have hrefl : Evolves L last (L ++ []) last [] := by
      rw [List.append_nil]
      exact .refl
    exact ⟨[], last, hL', hrefl, fun _ => ⟨rfl, rfl⟩, .of_subset (List.Subset.refl _),
      fun N hN => absurd hN List.not_mem_nil, by simp, rfl,
      fun q hq => .inl (by rwa [List.append_nil] at hq), fun q hq => absurd hq List.not_mem_nil⟩
  | @link f₁ m₁ m₂ es evs Y h hm hY hown ih =>
    obtain ⟨Z, last', hrep, hevolves, hsame, hcarried, hentries, hall, hpages, howned, hopened⟩ :=
      ih hsub hnodup
    refine ⟨Z, last', hrep.congr (fun q hq a ha => hm a ?_) hrep.inUse rfl rfl, hevolves,
      hsame, hcarried, hentries, hall, hpages, howned, hopened⟩
    rintro ⟨y, hy, hc⟩
    have hyq : y ≠ q := by
      rintro rfl
      rcases howned y hq with hq | hq | hq
      · exact hdisj y (hY hy) hq
      · exact hown y hy hq
      · exact (hX y (hY hy)).2.1 (hopened y hq)
    obtain ⟨P, hP, hqP⟩ := mem_owned.1 hq
    have := (hX y (hY hy)).1.apart ((hrep.rep P hP).isPage_own q hqP) hyq
    rw [mem_linkBytes] at hc
    rw [mem_pageBytes] at ha
    omega
  | @entry f₁ f₂ m₁ m₂ es evs evs' E h hE ih =>
    rw [pagesOf_append, pagesOf_cons, pagesOf_nil, List.append_nil] at hsub hnodup
    obtain ⟨hnodup₁, -, hapart⟩ := List.nodup_append'.1 hnodup
    obtain ⟨Z, last₁, hrep, hevolves, -, hcarried, hentries, hall, hpages, howned, hopened⟩ :=
      ih (fun q hq => hsub q (List.mem_append_left _ hq)) hnodup₁
    obtain ⟨ts, hstep⟩ := h.logStep hf hX
    have hnew : ∀ q ∈ E.pages, q ∉ owned (L ++ Z ++ [last₁]) := by
      intro q hq hc
      have hqX := hsub q (List.mem_append_right _ hq)
      rcases howned q hc with hc | hc | hc
      · exact hdisj q hqX hc
      · exact hapart hc hq
      · exact (hX q hqX).2.1 (hopened q hc)
    obtain ⟨L', last', hrep', hext⟩ := hrep.append hstep.holds hE hnew
    have hevolves' := hext.evolves hrep' hevolves
    have hmore : ¬ es ++ [E] = [] := by simp
    have hall' : ∀ Z', L' = L ++ Z' → entriesIn (Z' ++ [last']) = last.entries ++ (es ++ [E]) := by
      rintro Z' rfl
      have happended := hext.entriesIn
      simp only [List.append_assoc, entriesIn_append] at happended hall
      rw [entriesIn_append, List.append_cancel_left happended, ← List.append_assoc, hall,
        List.append_assoc]
    have howned' {q : Nat} (hq : q ∈ owned (L' ++ [last'])) : q ∈ owned (L ++ [last]) ∨
        q ∈ pagesOf (es ++ [E]) ∨ q ∈ openedPages (evs' ++ evs) := by
      rw [pagesOf_append, pagesOf_cons, pagesOf_nil, List.append_nil, openedPages_append,
        List.mem_append, List.mem_append]
      rcases hext.mem_owned hq with hq | hq | hq
      · rcases howned q hq with hq | hq | hq
        · exact .inl hq
        · exact .inr (.inl (.inl hq))
        · exact .inr (.inr (.inl hq))
      · exact .inr (.inl (.inr hq))
      · exact .inr (.inr (.inr hq))
    have hentries' {Q : LogPage} {Qs : List LogPage} (hcarry : Carried (Z ++ [last₁]) Qs)
      (hQ : Q ∈ Qs)
        (hE' : E ∈ Q.entries) : ∀ N ∈ es ++ [E], ∃ Q ∈ Qs, N ∈ Q.entries := by
      intro N hN
      rcases List.mem_append.1 hN with hN | hN
      · obtain ⟨Q', hQ', hN'⟩ := hentries N hN
        obtain ⟨Q'', hQ'', -, hsub'⟩ := hcarry Q' hQ'
        exact ⟨Q'', hQ'', hsub' hN'⟩
      · obtain rfl := List.mem_singleton.1 hN
        exact ⟨Q, hQ, hE'⟩
    rcases hext with ⟨rfl, rfl, rfl⟩ | ⟨rfl, rfl, rfl⟩
    · have hsame : openedPages ([.logEntry E.off] ++ evs) = openedPages evs := by
        rw [openedPages_append, show openedPages [.logEntry E.off] = [] from rfl, List.append_nil]
      have hcarry : Carried (Z ++ [last₁]) (Z ++ [⟨last₁.page, last₁.entries ++ [E]⟩]) := by
        refine .append_left Z fun P hP => ?_
        obtain rfl := List.mem_singleton.1 hP
        exact ⟨_, List.mem_singleton_self _, rfl, List.subset_append_left _ _⟩
      refine ⟨Z, _, hrep', hevolves', fun hc => absurd hc hmore, hcarried.trans hcarry,
        hentries' hcarry (List.mem_append_right _ (List.mem_singleton_self _)) (by simp),
        hall' Z rfl, ?_, fun q hq => howned' hq, hsame ▸ hopened⟩
      rw [hsame, ← hpages, List.map_append, List.map_append]
      rfl
    · have hcarry : Carried (Z ++ [last₁]) (Z ++ [last₁] ++ [⟨E.off, [E]⟩]) :=
        .of_subset (List.subset_append_left _ _)
      refine ⟨Z ++ [last₁], ⟨E.off, [E]⟩, by rwa [← List.append_assoc],
        by rwa [← List.append_assoc], fun hc => absurd hc hmore, hcarried.trans hcarry,
        hentries' hcarry (List.mem_append_right _ (List.mem_singleton_self _)) (by simp),
        hall' _ (List.append_assoc _ _ _), ?_,
        fun q hq => howned' (by rwa [← List.append_assoc] at hq), ?_⟩
      · rw [openedPages_append, List.map_append, hpages]
        rfl
      · rw [openedPages_append]
        intro q hq
        rcases List.mem_append.1 hq with hq | hq
        · exact hopened q hq
        · obtain rfl : E.off = q := by simpa [openedPages, Event.page?] using hq
          cases hE.grown with
          | newPage full _ _ _ _ _ =>
            obtain ⟨hfree, hoff⟩ := hE.page_new full
            exact hstep.sub (hoff ▸ hfree)

/-- The entries are appended without a call of `free_pages`. -/
theorem Appends.free_notMem (h : Appends A X f m f' m' es evs) (node pageNum : Nat) :
    .free node pageNum ∉ evs := by
  induction h with
  | nil => exact List.not_mem_nil
  | link _ _ _ _ ih => exact ih
  | entry _ hE ih =>
    rw [List.mem_append]
    rintro (hc | hc)
    · cases hE.grown with
      | inside => simp at hc
      | newPage => simp at hc
    · exact ih hc

end Opened

/-! ## One page -/

section Collect

variable {A : PageAllocator} {inode r : Nat} {f f' : Frontier} {s : State} {K L R : List LogPage}
  {last P : LogPage} {ts : List Nat} {m m' : Memory} {X : Set Nat} {Y : List Nat}

/-- A step of the log stays within the pages it owns and the free ones. -/
theorem LogStep.frame_logBytes (h : LogStep A (linkBytesOf X) f f' ts m m') (hf : f.Holds A m)
    (inode : Nat) (hpage : f.page ∈ Y) (hX : ∀ q ∈ X, q ∈ Y) :
    ChangesOnly (logBytes f inode Y) m m' := by
  refine h.frame.mono fun a ha => .inl ?_
  rcases ha with ((ha | ⟨q, hq, ha⟩) | ha) | ⟨q, hq, ha⟩
  · rcases allocatorBytes_subset ha with ha | ⟨q, hq, ha⟩
    · exact .inl ha
    · exact .inr ⟨q, .inl hq, ha⟩
  · exact .inr ⟨q, .inl hq.1, ha⟩
  · refine .inr ⟨f.page, .inr hpage, ?_⟩
    have := hf.le_tail
    have := hf.tail_le
    rw [mem_tailBytes] at ha
    rw [mem_pageBytes]
    omega
  · refine .inr ⟨q, .inr (hX q hq), ?_⟩
    rw [mem_linkBytes] at ha
    rw [mem_pageBytes]
    omega

/-- The page `P` has left the log with the pages `L` and then `last`; its entries stand at the end
of the log, and a chain of `n` of its pages that starts with `p` has been freed behind it. -/
structure Removed (A : PageAllocator) (inode r : Nat) (f f' : Frontier) (s s' : State)
    (L Z : List LogPage) (P last last' : LogPage) (p n : Nat) (evs : List Event) : Prop where
  log : LogOf A inode r s'.mem f' (L ++ Z) last'
  pages : (Z ++ [last']).map (·.page) = last.page :: openedPages evs
  data : p ∈ pagesOf P.entries
  recorded : Recorded (.free (p + 4096) n :: .free (P.page + 4096) 1 :: evs) s s'
  noFree : ∀ node k, .free node k ∉ evs
  fresh : ∀ q ∈ openedPages evs, q ∈ f.free
  index : s'.index = s.index
  free : ∀ q ∈ f'.free, q ∈ f.free ∨ q ∈ P.own
  own : ∀ q ∈ owned (L ++ Z ++ [last']), q ∈ owned (L ++ [last]) ∨ q ∈ P.own ∨ q ∈ f.free
  frame : ChangesOnly (logBytes f inode (owned (L ++ [last]) ++ P.own)) s.mem s'.mem
  /-- No more pages are gone than the runs of valid pages fill with entries. -/
  lasts : ∀ n, A.Lasts (n + entryPages (runsOf P.entries).length) s.mem → A.Lasts n s'.mem

/-- The data pages of a log. -/
def dataPages (L : List LogPage) : List Nat := L.flatMap fun P => pagesOf P.entries

theorem mem_dataPages {L : List LogPage} {q : Nat} :
    q ∈ dataPages L ↔ ∃ P ∈ L, q ∈ pagesOf P.entries := List.mem_flatMap

/-- Where the entries of `P` have gone: the log has evolved, and the node of a data page still names
the entry it named before. -/
structure Regrown (L Z : List LogPage) (P last last' : LogPage) (m m' : Memory) (evs : List Event) :
    Prop where
  evolves : Evolves L last (L ++ Z) last' evs
  /-- Without a valid page nothing is appended. -/
  idle : runsOf P.entries = [] → Z = [] ∧ last' = last
  carried : Carried [last] (Z ++ [last'])
  moved : MovedTo P (Z ++ [last'])
  data : ∀ q ∈ dataPages (L ++ Z ++ [last']), q ∈ dataPages (L ++ [last]) ∨ q ∈ pagesOf P.entries
  logEntry : ∀ q ∈ dataPages (L ++ Z ++ [last']), Set.EqOn m' m (Set.Ico (q + 4128) (q + 4136))

/-- Collecting a page that has been taken out of the log. -/
theorem LogOf.collect (h : LogOf A inode r s.mem f L last) (hd : Detached A f s.mem P)
    (hapart : ∀ q ∈ P.own, q ∉ owned (L ++ [last]) ∧ q ≠ r)
    (hpos : 1 ≤ (tally P.entries).invalidPages) :
    (gcLogBlock A inode (P.page + 4096) s = .error .noPages ∧
      ¬ A.Lasts (entryPages (runsOf P.entries).length) s.mem) ∨
    ∃ s' f' Z last' p n evs, gcLogBlock A inode (P.page + 4096) s = .ok s' ∧
      Removed A inode r f f' s s' L Z P last last' p n evs ∧
      Regrown L Z P last last' s.mem s'.mem evs ∧
      FileKept inode (entriesIn (P :: (L ++ [last]))) (entriesIn (L ++ Z ++ [last'])) s.mem s'.mem ∧
      PagesBalance s s' (owned (P :: (L ++ [last]))).length (owned (L ++ Z ++ [last'])).length := by
  rcases hd.gcLogBlock h.tail hpos with hfail | ⟨g, s₁, f₁, evs, ns, freed, p, F', s₂, hrun, hmoved,
    hfreed, hc, -, hp, -, -, hfree, hrep, hsub, hframe, hlasts, hok⟩
  · exact .inl hfail
  have hdata {q : Nat} (hq : q ∈ pagesOf P.entries) : q ∈ P.own := List.mem_cons_of_mem _ hq
  have hns {q : Nat} (hq : q ∈ pagesOf ns) : q ∈ pagesOf P.entries :=
    hc.perm.subset (List.mem_append_left _ hq)
  have hPdata := (List.nodup_cons.1 hd.nodup).1
  obtain ⟨Z, last', hlog, hevolves, hidle, hcarried, hentries, hall, hpages, howned, hopened⟩ :=
    hc.appends.evolves hc.holds₀ hc.held₀ h.log (fun q hq => (hapart q (hdata hq)).1)
      (fun q hq => hns hq) (List.nodup_append'.1 hc.nodup').1
  obtain ⟨ts, hstep⟩ := hc.logStep
  have hlast : f.page ∈ owned (L ++ [last]) := h.log.page ▸ mem_owned_page (by simp)
  -- the inode lies in a page in use
  have hr : Held f {q | q = r} := by
    rintro q rfl
    refine ⟨h.inodeIn.1, h.inUse, ?_⟩
    rintro rfl
    exact h.apart hlast
  have hr₁ := hr.step hstep r rfl
  have hkeepr : Set.EqOn s₁.mem s.mem (pageBytes r) :=
    hr.keeps hc.holds₀ hstep (fun q hq => (hc.held₀ q hq).1) rfl fun hq =>
      (hapart r (hdata hq)).2 rfl
  -- the pages that are handed back are none of these
  have hback {q : Nat} (hq : q ∈ P.page :: freed) : q ∈ P.own ∧ q ∉ f.free ∧ q ∉ pagesOf ns := by
    rcases List.mem_cons.1 hq with rfl | hq
    · exact ⟨List.mem_cons_self, (hd.inUse _ List.mem_cons_self).1, fun hc => hPdata (hns hc)⟩
    · have hmem := (hc.mem_freed hq).1
      refine ⟨hdata hmem, (hd.inUse q (hdata hmem)).1, fun hcn => ?_⟩
      exact (List.nodup_append'.1 hc.nodup').2.2 hcn (List.mem_append_left _ hq)
  have hset : ∀ q ∈ f₁.free ∪ {q | q ∈ P.page :: freed}, IsPage q := by
    rintro q (hq | hq)
    · exact A.rep_page hc.holds.rep q hq
    · exact hd.rep.isPage_own q (hback hq).1
  have hout {q : Nat} (hq : q ∈ owned (L ++ Z ++ [last'])) :
      q ∉ f₁.free ∪ {q | q ∈ P.page :: freed} := by
    rintro (hqf | hqb)
    · exact hlog.inUse q hq hqf
    · obtain ⟨hqP, hqf, hqn⟩ := hback hqb
      rcases howned q hq with hq | hq | hq
      · exact (hapart q hqP).1 hq
      · exact hqn hq
      · exact hqf (hopened q hq)
  have hrout : r ∉ f₁.free ∪ {q | q ∈ P.page :: freed} := by
    rintro (hrf | hrb)
    · exact hr₁.2.1 hrf
    · exact (hapart r (hback hrb).1).2 rfl
  have hrowned : r ∉ owned (L ++ Z ++ [last']) := by
    intro hq
    rcases howned r hq with hq | hq | hq
    · exact h.apart hq
    · exact (hapart r (hdata (hns hq))).2 rfl
    · exact h.inUse (hopened r hq)
  have htail : ChangesOnly (inodeBytes inode) s₂.mem (updateInodeTail s₂.mem inode f₁.tail) :=
    AtfsInode.changesOnly _ _ _ _
  have hkeep {q : Nat} (hq : q ∈ owned (L ++ Z ++ [last'])) :
      Set.EqOn (updateInodeTail s₂.mem inode f₁.tail) s₁.mem (pageBytes q) := by
    obtain ⟨Q, hQ, hqQ⟩ := mem_owned.1 hq
    have hpage := (hlog.rep Q hQ).isPage_own q hqQ
    have hne : q ≠ r := by
      rintro rfl
      exact hrowned hq
    intro a ha
    have hinode : a ∉ inodeBytes inode := fun hc =>
      Set.disjoint_left.1 (h.inodeIn.disjoint_page hpage hne) hc ha
    exact (htail a hinode).trans (hframe a (not_mem_allocatorBytes hset hpage (hout hq) ha))
  have hbounds := hc.holds.isPage.bounds
  have htail_lt : f₁.tail < 2 ^ 64 := by
    have := hc.holds.tail_le
    omega
  have hword (g : Field 216) (hg : g.off + g.size ≤ 64 ∨ 72 ≤ g.off) :
      g.get (updateInodeTail s₂.mem inode f₁.tail) inode = g.get s.mem inode := by
    refine (Field.get_set_of_disjoint _ _ _ ?_).trans (Field.get_congr fun a ha => ?_)
    · rw [AtfsInode.logTail_off, AtfsInode.logTail_size]
      omega
    · have har : a ∈ pageBytes r := by
        obtain ⟨-, hle, hle'⟩ := h.inodeIn
        have hfits := g.fits
        rw [Field.bytes, Set.mem_Ico] at ha
        rw [show sizeofAtfsInode = 216 from rfl] at hle'
        rw [mem_pageBytes]
        omega
      exact (hframe a (not_mem_allocatorBytes hset h.inodeIn.1 hrout har)).trans (hkeepr har)
  have hhead := hword AtfsInode.logHead (by decide)
  have hstart : ∀ E ∈ P.entries, E.startWriteOff < 2 ^ 64 := fun E hE => by
    rw [← (hd.rep.stored E hE).words.startWriteOff]
    exact FileLogEntry.startWriteOff.get_lt _ _
  have hpage₁ : f₁.page ∈ owned (L ++ Z ++ [last']) := hlog.page ▸ mem_owned_page (by simp)
  have hF' {q : Nat} (hq : q ∈ F') : q ∈ f₁.free ∪ {q | q ∈ P.page :: freed} := hsub q hq
  -- a data page is neither a log page nor one that was free
  have hlogPage {Q : LogPage} {q X : Nat} (hQ : Q ∈ L ++ Z ++ [last']) (hq : q ∈ pagesOf Q.entries)
      (hX : X ∈ L.map (·.page) ∨ X ∈ last.page :: openedPages evs) : X ≠ q := by
    rintro rfl
    rw [← hpages, ← List.mem_append, ← List.map_append] at hX
    obtain ⟨Q', hQ', heq⟩ := List.mem_map.1 hX
    rw [← List.append_assoc] at hQ'
    exact page_notMem_pagesOf hlog.nodup hQ' hQ (heq ▸ hq)
  have hdataOf : ∀ q ∈ dataPages (L ++ Z ++ [last']),
      q ∈ dataPages (L ++ [last]) ∨ q ∈ pagesOf ns := by
    intro q hq
    obtain ⟨Q, hQ, hq⟩ := mem_dataPages.1 hq
    rcases howned q (mem_owned.2 ⟨Q, hQ, List.mem_cons_of_mem _ hq⟩) with hc | hc | hc
    · obtain ⟨Q', hQ', hc⟩ := mem_owned.1 hc
      refine .inl (mem_dataPages.2 ⟨Q', hQ', (List.mem_cons.1 hc).resolve_left fun heq => ?_⟩)
      refine hlogPage hQ hq (X := Q'.page) ?_ heq.symm
      rcases List.mem_append.1 hQ' with hQ' | hQ'
      · exact .inl (List.mem_map_of_mem hQ')
      · exact .inr (List.mem_singleton.1 hQ' ▸ List.mem_cons_self)
    · exact .inr hc
    · exact absurd rfl (hlogPage hQ hq (.inr (List.mem_cons_of_mem _ hc)))
  -- nothing but the link of a data page has been set
  have hkeepData : ∀ q ∈ dataPages (L ++ Z ++ [last']),
      Set.EqOn (updateInodeTail s₂.mem inode f₁.tail) s.mem (pageBytes q \ linkBytes q) := by
    intro q hq
    obtain ⟨Q, hQ, hqQ⟩ := mem_dataPages.1 hq
    have hqowned : q ∈ owned (L ++ Z ++ [last']) := mem_owned.2 ⟨Q, hQ, List.mem_cons_of_mem _ hqQ⟩
    have hqpage := (hlog.rep Q hQ).isPage_own q (List.mem_cons_of_mem _ hqQ)
    have huse : q ∉ f.free ∧ q ≠ f.page := by
      refine ⟨?_, fun hc => hlogPage hQ hqQ (.inr List.mem_cons_self) (hc.trans h.log.page).symm⟩
      rcases hdataOf q hq with hq | hq
      · obtain ⟨Q', hQ', hq⟩ := mem_dataPages.1 hq
        exact h.log.inUse q (mem_owned.2 ⟨Q', hQ', List.mem_cons_of_mem _ hq⟩)
      · exact (hd.inUse q (hdata (hns hq))).1
    refine ((hkeep hqowned).mono Set.sdiff_subset).trans fun a ha => ?_
    refine hstep.keeps hc.holds₀ hqpage huse.1 huse.2 ha.1 ?_
    rintro ⟨y, hy, hlink⟩
    by_cases hyq : y = q
    · exact ha.2 (hyq ▸ hlink)
    · have := (hc.held₀ y hy).1.apart hqpage hyq
      have ha := ha.1
      rw [mem_pageBytes] at ha
      rw [mem_linkBytes] at hlink
      omega
  refine .inr ⟨_, ⟨F', f₁.page, f₁.tail⟩, Z, last', p, freed.length, evs, hok,
    ⟨⟨?_, ?_, ?_, h.inodeIn, fun hc => hrout (hF' hc), hrowned⟩, hpages, (hc.mem_freed hp).1, ?_,
    hc.appends.free_notMem, hopened, ?_, fun q hq => ?_, fun q hq => ?_, ?_, fun n hlast => ?_⟩,
    ⟨hevolves, fun hnone => ?_, hcarried, fun E hE i q hq hbit => ?_,
      fun q hq => (hdataOf q hq).imp_right hns, fun q hq => ?_⟩,
    ⟨fun k q => ?_, fun k q hlive => ?_, fun g hg => ?_⟩, ?_⟩
  · have hholds : Frontier.Holds A ⟨F', f₁.page, f₁.tail⟩ s₂.mem :=
      ⟨hrep, hc.holds.isPage, fun hc => hout hpage₁ (hF' hc), hc.holds.le_tail, hc.holds.tail_le⟩
    exact hholds.of_inUse htail fun a ha =>
      ⟨r, h.inodeIn.1, fun hc => hrout (hF' hc), h.inodeIn.subset_page ha⟩
  · rw [hhead]
    exact hlog.congr (fun q hq => hkeep hq) (fun q hq hc => hout hq (hF' hc)) rfl rfl
  · exact Field.get_set_self_of_lt _ _ htail_lt
  · have hfirst : Recorded (.free (P.page + 4096) 1 :: evs) s (A.freePages s₁ (P.page + 4096) 1) :=
      hc.recorded.cons rfl rfl
    exact hfirst.cons rfl (hfree ▸ rfl)
  · rw [← hc.index, ← hfree]
    rfl
  · rcases hsub q hq with hq | hq
    · exact .inl (hstep.sub hq)
    · exact .inr (hback hq).1
  · rcases howned q hq with hq | hq | hq
    · exact .inl hq
    · exact .inr (.inl (hdata (hns hq)))
    · exact .inr (.inr (hopened q hq))
  · refine ((hstep.frame_logBytes hc.holds₀ inode (List.mem_append_left _ hlast) fun q hq =>
      List.mem_append_right _ (hdata hq)).trans (hframe.mono fun a ha => .inl ?_)).trans
      (htail.mono fun a ha => .inr ha)
    rcases allocatorBytes_subset ha with ha | ⟨q, hq | hq, ha⟩
    · exact .inl ha
    · exact .inr ⟨q, .inl (hstep.sub hq), ha⟩
    · exact .inr ⟨q, .inr (List.mem_append_right _ (hback hq).1), ha⟩
  · exact (hlasts n hlast).congr hrep
      (htail.eqOn (h.inodeIn.apart (A.rep_page hrep) fun hc => hrout (hF' hc)))
  · rw [hnone, List.forall₂_nil_left_iff] at hmoved
    exact hidle hmoved
  · obtain ⟨N, hN, hqN⟩ := mem_pagesOf.1 ((hc.pagesKept hmoved hfreed).valid E hE i q hq hbit)
    obtain ⟨Q, hQ, hNQ⟩ := hentries N hN
    obtain ⟨_, _, _, _, hnew⟩ := mem_runsOf_of_moved hmoved hN
    refine ⟨Q, hQ, fun hpage => ?_, N, hNQ, hqN, hnew.valid.2⟩
    -- the page is still in use when the entry is appended
    have hmem := List.mem_map_of_mem (f := LogPage.page) hQ
    rw [hpages, hpage] at hmem
    rcases List.mem_cons.1 hmem with heq | hmem
    · exact (hapart P.page List.mem_cons_self).1 (heq ▸ h.log.page ▸ hlast)
    · exact (hd.inUse P.page List.mem_cons_self).1 (hopened _ hmem)
  · refine (hkeepData q hq).mono fun a ha => ?_
    rw [Set.mem_Ico] at ha
    rw [Set.mem_sdiff, mem_pageBytes, mem_linkBytes]
    omega
  · rw [List.append_assoc, entriesIn_append, hall, entriesIn_cons, entriesIn_append, entriesIn_cons,
      entriesIn_nil, List.append_nil]
    simp only [liveAt_append, liveAt_moved hmoved hstart]
    exact or_rotate.symm
  · refine (hkeepData q ?_).mono fun a ha => ?_
    · obtain ⟨Q, hQ, hqQ⟩ := mem_pagesOf_entriesIn.1 hlive.mem_pagesOf
      exact mem_dataPages.2 ⟨Q, hQ, hqQ⟩
    · rw [bodyBytes, Set.mem_Ico] at ha
      rw [Set.mem_sdiff, mem_pageBytes, mem_linkBytes]
      omega
  · exact hword g (by omega)
  · have htrace : s₂.trace = .free (p + 4096) freed.length :: .free
      (P.page + 4096) 1 :: s₁.trace := by
      rw [← hfree]
      rfl
    have hbalance := hc.balance hrun htrace
    have hnum := congrArg List.length hpages
    have hnew := congrArg (fun es => (pagesOf es).length) hall
    simp only [List.length_map, List.length_append, List.length_cons, List.length_nil,
      length_openedPages] at hnum
    simp only [entriesIn_append, entriesIn_cons, entriesIn_nil, List.append_nil, pagesOf_append,
      List.length_append] at hnew
    change PagesBalance s s₂ _ _
    simp only [length_owned, List.length_append, List.length_cons, List.length_nil,
      entriesIn_append, entriesIn_cons, entriesIn_nil, List.append_nil, pagesOf_append]
    unfold PagesBalance at *
    omega

/-- Unlinking a page sets links and the head of the log. -/
theorem LogOf.unlink_kept {prev : Nat} (h : LogOf A inode r m f (K ++ P :: R) last)
    (hprev : ∀ Q, K.getLast? = some Q → prev = Q.page)
    (hunlink : unlinkLogPage m inode prev P.page = (headPage R last.page, m')) :
    FileKept inode (entriesIn (K ++ P :: R ++ [last]))
      (entriesIn (K ++ P :: R ++ [last])) m m' := by
  obtain ⟨m₁, hunlink₁, -, -, -, hchange⟩ := h.unlink hprev
  obtain rfl : m₁ = m' := (Prod.mk.inj (hunlink₁.symm.trans hunlink)).2
  have hPmem : P ∈ K ++ P :: R ++ [last] := by simp
  refine ⟨fun k q => Iff.rfl, fun k q hlive a ha => hchange a ?_, fun g hg => ?_⟩
  · obtain ⟨Q, hQ, hqQ⟩ := mem_pagesOf_entriesIn.1 hlive.mem_pagesOf
    obtain ⟨hqpage, -, hqr⟩ := h.owned_page (mem_owned.2 ⟨Q, hQ, List.mem_cons_of_mem _ hqQ⟩)
    rw [bodyBytes, Set.mem_Ico] at ha
    rintro (⟨y, hy, hc⟩ | hc)
    · obtain ⟨Y, hY, rfl⟩ := List.mem_map.1 hy
      have hne : Y.page ≠ q := by
        rintro rfl
        exact page_notMem_pagesOf h.log.nodup hY hQ hqQ
      have := (h.isPage hY).apart hqpage hne
      rw [mem_linkBytes] at hc
      omega
    · refine Set.disjoint_left.1 (h.inodeIn.disjoint_page hqpage hqr) hc ?_
      rw [mem_pageBytes]
      omega
  · have hredirect (next : Nat) : g.get (redirectLink m inode prev P.page next) inode =
      g.get m inode := by
      rw [redirectLink]
      split_ifs with hhead
      · refine Field.get_set_of_disjoint _ _ _ ?_
        rw [AtfsInode.logHead_off, AtfsInode.logHead_size]
        omega
      · rcases List.eq_nil_or_concat' K with rfl | ⟨K, Q, rfl⟩
        · have hchain := h.log.chain
          rw [List.nil_append, List.map_cons] at hchain
          exact absurd hchain.head_eq.symm hhead
        · have hQ : Q ∈ K ++ [Q] ++ P :: R ++ [last] := by simp
          obtain rfl := hprev Q (by simp)
          rw [(h.isPage hQ).getNvmPageNodeAddr_eq]
          exact h.get_set_link hQ _ _ _
    rw [unlinkLogPage] at hunlink
    simp only [(h.isPage hPmem).getNvmPageNodeAddr_eq] at hunlink
    rw [← (Prod.mk.inj hunlink).2, h.get_set_link hPmem]
    exact hredirect _

/-- Taking a selected page out of the log and collecting it. -/
theorem LogOf.remove (h : LogOf A inode r s.mem f (K ++ P :: R) last) (hpick : P.picked = true)
    {prev : Nat} (hprev : ∀ Q, K.getLast? = some Q → prev = Q.page) :
    ∃ m, unlinkLogPage s.mem inode prev P.page = (headPage R last.page, m) ∧
      (gcLogBlock A inode (P.page + 4096) { s with mem := m } = .error .noPages ∧
        ¬ A.Lasts (entryPages (runsOf P.entries).length) s.mem ∨
      ∃ s' f' Z last' p n evs, gcLogBlock A inode (P.page + 4096) { s with mem := m } = .ok s' ∧
        Removed A inode r f f' s s' (K ++ R) Z P last last' p n evs ∧
        Regrown (K ++ R) Z P last last' s.mem s'.mem evs ∧
        FileKept inode (entriesIn (K ++ P :: R ++ [last]))
        (entriesIn (K ++ R ++ Z ++ [last'])) s.mem
          s'.mem ∧
        PagesBalance s s' (owned (K ++ P :: R ++ [last])).length
        (owned (K ++ R ++ Z ++ [last'])).length) := by
  obtain ⟨m, hunlink, hlog, hdet, hapart, hchange⟩ := h.unlink hprev
  refine ⟨m, hunlink, ?_⟩
  have hsel := hdet.rep.selected_eq.trans hpick
  have hlasts (n : Nat) (hlast : A.Lasts n s.mem) : A.Lasts n m := by
    refine hlast.congr h.holds.rep (eqOn_of_inUse (A.rep_page h.holds.rep) hchange ?_)
    rintro a (⟨q, hq, ha⟩ | ha)
    · obtain ⟨Q, hQ, rfl⟩ := List.mem_map.1 hq
      obtain ⟨hpage, hfree, -⟩ := h.owned_page (mem_owned_page hQ)
      refine ⟨Q.page, hpage, hfree, ?_⟩
      rw [mem_linkBytes] at ha
      rw [mem_pageBytes]
      omega
    · exact ⟨r, h.inodeIn.1, h.inUse, h.inodeIn.subset_page ha⟩
  rcases LogOf.collect (s := { s with mem := m }) hlog hdet hapart
    (hdet.rep.invalid_pos hsel) with hfail |
    ⟨s', f', Z, last', p, n, evs, hok, hrem, hreg, hkept, hbalance⟩
  · exact .inl ⟨hfail.1, fun hlast => hfail.2 (hlasts _ hlast)⟩
  · have hperm : (owned (K ++ P :: R ++ [last])).Perm (owned (P :: (K ++ R ++ [last]))) := by
      have := owned_middle K (R ++ [last]) P
      simpa only [List.append_assoc, List.cons_append, owned_cons] using this
    refine .inr ⟨s', f', Z, last', p, n, evs, hok,
      { hrem with frame := ?_, lasts := fun n hlast => hrem.lasts n (hlasts _ hlast) },
      { hreg with logEntry := fun q hq => ?_ }, (h.unlink_kept hprev hunlink).trans
        (hkept.congr (fun E => ?_) fun E => Iff.rfl), hperm.length_eq ▸ hbalance⟩
    rotate_left
    · -- unlinking sets links and the head of the log
      obtain ⟨Q, hQ, hqQ⟩ := mem_dataPages.1 hq
      have hqowned : q ∈ owned (K ++ R ++ Z ++ [last']) :=
        mem_owned.2 ⟨Q, hQ, List.mem_cons_of_mem _ hqQ⟩
      obtain ⟨hqpage, -, hqr⟩ := hrem.log.owned_page hqowned
      refine (hreg.logEntry q hq).trans fun a ha => hchange a ?_
      rw [Set.mem_Ico] at ha
      rintro (⟨y, hy, hc⟩ | hc)
      · obtain ⟨Y, hY, rfl⟩ := List.mem_map.1 hy
        rw [mem_linkBytes] at hc
        by_cases hyq : Y.page = q
        · omega
        · have := (h.isPage hY).apart hqpage hyq
          omega
      · refine Set.disjoint_left.1 (h.inodeIn.disjoint_page hqpage hqr) hc ?_
        rw [mem_pageBytes]
        omega
    · simp only [entriesIn_cons, entriesIn_append, List.mem_append]
      tauto
    refine ChangesOnly.trans (hchange.mono fun a ha => ?_) hrem.frame
    rcases ha with ⟨q, hq, ha⟩ | ha
    · have hmem : q ∈ owned (K ++ R ++ [last]) ++ P.own := by
        obtain ⟨Q, hQ, rfl⟩ := List.mem_map.1 hq
        have hperm := owned_middle K (R ++ [last]) P
        rw [← List.cons_append, ← List.append_assoc, ← List.append_assoc] at hperm
        exact (hperm.trans List.perm_append_comm).subset (mem_owned_page hQ)
      refine .inl (.inr ⟨q, .inr hmem, ?_⟩)
      rw [mem_linkBytes] at ha
      rw [mem_pageBytes]
      omega
    · exact .inr ha

end Collect

/-! ## The loop -/

/-- Page `p` has been handed back once, and has become the last of the log again only later. -/
def HandedBack (p : Nat) (evs : List Event) : Prop :=
  evs.count (.free (p + 4096) 1) = 1 ∧ (p ∈ openedPages evs →
    ∃ late early, evs = late ++ .free (p + 4096) 1 :: early ∧ p ∈ openedPages late ∧
      p ∉ openedPages early)

/-- What the loop makes of a log whose pages `K` it has passed and whose pages `R` are to come. -/
structure Swept (A : PageAllocator) (inode r : Nat) (f f' : Frontier) (s s' : State)
    (K R Z Z' : List LogPage) (last last' : LogPage) (evs : List Event) : Prop where
  log : LogOf A inode r s'.mem f' (K ++ R.filter (!·.picked) ++ Z') last'
  pages : (Z' ++ [last']).map (·.page) = (Z ++ [last]).map (·.page) ++ openedPages evs
  recorded : Recorded evs s s'
  index : s'.index = s.index
  once : ∀ P ∈ R, P.picked = true → HandedBack P.page evs
  freed : ∀ node k, .free node k ∈ evs → ∃ P ∈ R, P.picked = true ∧ ∃ q ∈ P.own, node = q + 4096
  opened : ∀ q ∈ openedPages evs, q ∈ f.free ∨ ∃ P ∈ R, P.picked = true ∧ q ∈ P.own
  reach : ∀ q, q ∈ f'.free ∨ q ∈ owned (K ++ R.filter (!·.picked) ++ Z' ++ [last']) →
    q ∈ f.free ∨ q ∈ owned (K ++ R ++ Z ++ [last])
  frame : ChangesOnly (logBytes f inode (owned (K ++ R ++ Z ++ [last]))) s.mem s'.mem

section Loop

variable {A : PageAllocator} {inode r prev pageTail : Nat} {f f' f'' : Frontier} {s s' s'' : State}
  {K R Z Z' Z'' : List LogPage} {last last' last'' P : LogPage} {evs evs' : List Event}

theorem logBytes_mono {Y Y' : List Nat} (h : ∀ q, q ∈ f'.free ∨ q ∈ Y' → q ∈ f.free ∨ q ∈ Y) :
    logBytes f' inode Y' ⊆ logBytes f inode Y := by
  rintro a ((ha | ⟨q, hq, ha⟩) | ha)
  · exact .inl (.inl ha)
  · exact .inl (.inr ⟨q, h q hq, ha⟩)
  · exact .inr ha

theorem headPage_mem (Z : List LogPage) (last : LogPage) :
    ∃ Q ∈ Z ++ [last], Q.page = headPage Z last.page := by
  cases Z with
  | nil => exact ⟨last, by simp, rfl⟩
  | cons Q Z => exact ⟨Q, by simp, rfl⟩

/-- A page in front of another is not that one. -/
theorem LogOf.page_ne (h : LogOf A inode r s.mem f (K ++ P :: R ++ Z) last) :
    P.page ≠ headPage Z last.page := by
  obtain ⟨Q, hQ, hhead⟩ := headPage_mem Z last
  have hpages := (pages_sublist_owned _).nodup h.log.nodup
  rw [← hhead, List.append_assoc, List.append_assoc, List.map_append, List.cons_append,
    List.map_cons] at *
  have hcons := (List.nodup_append'.1 hpages).2.1
  refine fun hc => (List.nodup_cons.1 hcons).1 (List.mem_map.2 ⟨Q, ?_, hc.symm⟩)
  exact List.mem_append_right _ hQ

/-- A page that is not selected stays in the log. -/
theorem Swept.keep (h : Swept A inode r f f' s s' (K ++ [P]) R Z Z' last last' evs)
    (hP : P.picked = false) : Swept A inode r f f' s s' K (P :: R) Z Z' last last' evs := by
  have hfilter : (P :: R).filter (!·.picked) = P :: R.filter (!·.picked) := by
    rw [List.filter_cons, if_pos (by rw [hP]; rfl)]
  have hassoc (R : List LogPage) : K ++ [P] ++ R = K ++ P :: R := by
    rw [List.append_assoc, List.singleton_append]
  refine ⟨?_, h.pages, h.recorded, h.index, fun Q hQ hsel => ?_, fun node k hfree => ?_,
    fun q hq => ?_, fun q hq => ?_, ?_⟩
  · rw [hfilter, ← hassoc]
    exact h.log
  · rcases List.mem_cons.1 hQ with rfl | hQ
    · rw [hP] at hsel
      cases hsel
    · exact h.once Q hQ hsel
  · obtain ⟨Q, hQ, hQ'⟩ := h.freed node k hfree
    exact ⟨Q, List.mem_cons_of_mem _ hQ, hQ'⟩
  · refine (h.opened q hq).imp_right fun ⟨Q, hQ, hQ'⟩ => ⟨Q, List.mem_cons_of_mem _ hQ, hQ'⟩
  · rw [hfilter, ← hassoc] at hq
    rw [← hassoc]
    exact h.reach q hq
  · rw [← hassoc]
    exact h.frame

/-- A page that is selected leaves the log and is handed back. -/
theorem Swept.remove {p n : Nat} {f₁ : Frontier} {s₁ : State} {Z₁ : List LogPage} {last₁ : LogPage}
    (h : Swept A inode r f₁ f' s₁ s' K R (Z ++ Z₁) Z' last₁ last' evs')
    (hlog : LogOf A inode r s.mem f (K ++ P :: R ++ Z) last) (hpick : P.picked = true)
    (hrem : Removed A inode r f f₁ s s₁ (K ++ (R ++ Z)) Z₁ P last last₁ p n evs) :
    Swept A inode r f f' s s' K (P :: R) Z Z' last last'
      (evs' ++ .free (p + 4096) n :: .free (P.page + 4096) 1 :: evs) := by
  have hfilter : (P :: R).filter (!·.picked) = R.filter (!·.picked) := by
    rw [List.filter_cons, if_neg (by rw [hpick]; simp)]
  have hperm : (owned (K ++ P :: R ++ Z ++ [last])).Perm
      (P.own ++ owned (K ++ (R ++ Z) ++ [last])) := by
    have := owned_middle K (R ++ Z ++ [last]) P
    simpa only [List.append_assoc, List.cons_append] using this
  have hsplit := List.nodup_append'.1 (hperm.nodup_iff.1 hlog.log.nodup)
  have hPmem : P ∈ K ++ P :: R ++ Z ++ [last] := by simp
  have hfree {q : Nat} (hq : q ∈ owned (K ++ P :: R ++ Z ++ [last])) : q ∉ f.free :=
    hlog.log.inUse q hq
  have hown {Q : LogPage} {q : Nat} (hQ : Q ∈ R) (hq : q ∈ Q.own) : q ∉ P.own ∧ q ∉ f.free := by
    have hmem : q ∈ owned (K ++ (R ++ Z) ++ [last]) := mem_owned.2 ⟨Q, by simp [hQ], hq⟩
    exact ⟨fun hc => hsplit.2.2 hc hmem, hfree (hperm.symm.subset (List.mem_append_right _ hmem))⟩
  have hp : p ≠ P.page := by
    rintro rfl
    exact (List.nodup_cons.1 hsplit.1).1 hrem.data
  have hopen : openedPages (evs' ++ .free (p + 4096) n :: .free (P.page + 4096) 1 :: evs) =
      openedPages evs ++ openedPages evs' := openedPages_append _ _
  have hreach : ∀ q, q ∈ f₁.free ∨ q ∈ owned (K ++ R ++ (Z ++ Z₁) ++ [last₁]) →
      q ∈ f.free ∨ q ∈ owned (K ++ P :: R ++ Z ++ [last]) := by
    rintro q (hq | hq)
    · refine (hrem.free q hq).imp_right fun hq => hperm.symm.subset (List.mem_append_left _ hq)
    · have hq' : q ∈ owned (K ++ (R ++ Z) ++ Z₁ ++ [last₁]) := by
        simpa only [List.append_assoc] using hq
      rcases hrem.own q hq' with hq | hq | hq
      · exact .inr (hperm.symm.subset (List.mem_append_right _ hq))
      · exact .inr (hperm.symm.subset (List.mem_append_left _ hq))
      · exact .inl hq
  refine ⟨?_, ?_, hrem.recorded.trans h.recorded, h.index.trans hrem.index, fun Q hQ hsel => ?_,
    fun node k hmem => ?_, fun q hq => ?_, fun q hq => ?_, ?_⟩
  · rw [hfilter]
    exact h.log
  · rw [h.pages, hopen, List.append_assoc Z, List.map_append, hrem.pages, List.map_append]
    simp only [List.map_cons, List.map_nil, List.append_assoc, List.cons_append, List.nil_append]
  · rcases List.mem_cons.1 hQ with rfl | hQ
    · -- the page itself: freed once behind its entries
      refine ⟨?_, fun hq => ⟨evs' ++ [.free (p + 4096) n], evs, by simp, ?_, ?_⟩⟩
      · have hevs' : evs'.count (.free (Q.page + 4096) 1) = 0 := by
          refine List.count_eq_zero.2 fun hc => ?_
          obtain ⟨Q', hQ', -, q, hq, heq⟩ := h.freed _ _ hc
          exact (hown hQ' hq).1 (Nat.add_right_cancel heq ▸ List.mem_cons_self)
        have hevs : evs.count (.free (Q.page + 4096) 1) = 0 :=
          List.count_eq_zero.2 (hrem.noFree _ _)
        rw [List.count_append, List.count_cons, List.count_cons, hevs', hevs]
        simp [hp]
      · rw [hopen] at hq
        rw [openedPages_append]
        refine List.mem_append_right _ ((List.mem_append.1 hq).resolve_left fun hc => ?_)
        exact hfree (mem_owned_page hPmem) (hrem.fresh _ hc)
      · exact fun hc => hfree (mem_owned_page hPmem) (hrem.fresh _ hc)
    · obtain ⟨hcount, hlater⟩ := h.once Q hQ hsel
      have hQpage := hown hQ (List.mem_cons_self (a := Q.page))
      have hevs : evs.count (.free (Q.page + 4096) 1) = 0 := List.count_eq_zero.2 (hrem.noFree _ _)
      have hQp : p ≠ Q.page := by
        rintro rfl
        exact hQpage.1 (List.mem_cons_of_mem _ hrem.data)
      have hQP : P.page ≠ Q.page := fun hc => hQpage.1 (hc ▸ List.mem_cons_self)
      have hfresh : Q.page ∉ openedPages evs := fun hc => hQpage.2 (hrem.fresh _ hc)
      refine ⟨?_, fun hq => ?_⟩
      · rw [List.count_append, List.count_cons, List.count_cons, hcount, hevs]
        simp [hQp, hQP]
      · rw [hopen] at hq
        obtain ⟨late, early, rfl, hlate, hearly⟩ :=
          hlater ((List.mem_append.1 hq).resolve_left hfresh)
        refine ⟨late, early ++ .free (p + 4096) n :: .free (P.page + 4096) 1 :: evs,
          List.append_assoc _ _ _, hlate, fun hc => ?_⟩
        rw [openedPages_append] at hc
        exact (List.mem_append.1 hc).elim hfresh hearly
  · rcases List.mem_append.1 hmem with hmem | hmem
    · obtain ⟨Q, hQ, hQ'⟩ := h.freed node k hmem
      exact ⟨Q, List.mem_cons_of_mem _ hQ, hQ'⟩
    · simp only [List.mem_cons, Event.free.injEq] at hmem
      rcases hmem with ⟨rfl, -⟩ | ⟨rfl, -⟩ | hmem
      · exact ⟨P, List.mem_cons_self, hpick, p, List.mem_cons_of_mem _ hrem.data, rfl⟩
      · exact ⟨P, List.mem_cons_self, hpick, P.page, List.mem_cons_self, rfl⟩
      · exact absurd hmem (hrem.noFree _ _)
  · rw [hopen] at hq
    rcases List.mem_append.1 hq with hq | hq
    · exact .inl (hrem.fresh q hq)
    · rcases h.opened q hq with hq | ⟨Q, hQ, hQ'⟩
      · exact (hrem.free q hq).imp_right fun hq => ⟨P, List.mem_cons_self, hpick, hq⟩
      · exact .inr ⟨Q, List.mem_cons_of_mem _ hQ, hQ'⟩
  · rw [hfilter] at hq
    exact hreach q (h.reach q hq)
  · refine (hrem.frame.mono (logBytes_mono fun q hq => hq.imp_right fun hq => ?_)).trans
      (h.frame.mono (logBytes_mono hreach))
    exact hperm.symm.subset (List.perm_append_comm.subset hq)

/-- What the loop makes of the entries on the pages it has passed (`K`), those to come (`R`) and
those behind them (`Z`). -/
structure Repacked (K R Z Z' : List LogPage) (last last' : LogPage) (m m' : Memory)
    (evs : List Event) :
    Prop where
  evolves : Evolves (K ++ R ++ Z) last (K ++ R.filter (!·.picked) ++ Z') last' evs
  /-- If no page that is selected has a valid page, nothing is appended. -/
  idle : (∀ P ∈ R, P.picked = true → runsOf P.entries = []) → Z' = Z ∧ last' = last
  carried : Carried (Z ++ [last]) (Z' ++ [last'])
  moved : ∀ P ∈ R, P.picked = true → MovedTo P (Z' ++ [last'])
  data : ∀ q ∈ dataPages (K ++ R.filter (!·.picked) ++ Z' ++ [last']),
    q ∈ dataPages (K ++ R ++ Z ++ [last])
  logEntry : ∀ q ∈ dataPages (K ++ R.filter (!·.picked) ++ Z' ++ [last']),
    Set.EqOn m' m (Set.Ico (q + 4128) (q + 4136))

theorem Repacked.keep {m m' : Memory} (h : Repacked (K ++ [P]) R Z Z' last last' m m' evs)
    (hP : P.picked = false) : Repacked K (P :: R) Z Z' last last' m m' evs := by
  have hfilter : (P :: R).filter (!·.picked) = P :: R.filter (!·.picked) := by
    rw [List.filter_cons, if_pos (by rw [hP]; rfl)]
  have hassoc (R : List LogPage) : K ++ [P] ++ R = K ++ P :: R := by
    rw [List.append_assoc, List.singleton_append]
  obtain ⟨hevolves, hidle, hcarried, hmoved, hdata, hlogEntry⟩ := h
  simp only [hassoc] at hevolves hdata hlogEntry
  rw [← hfilter] at hevolves hdata hlogEntry
  refine ⟨hevolves, fun hnone => hidle fun Q hQ => hnone Q (List.mem_cons_of_mem _ hQ), hcarried,
    fun Q hQ hpick => ?_, hdata, hlogEntry⟩
  rcases List.mem_cons.1 hQ with rfl | hQ
  · rw [hP] at hpick
    cases hpick
  · exact hmoved Q hQ hpick

theorem Repacked.remove {p n : Nat} {m m₁ m' : Memory} {Z₁ : List LogPage} {last₁ : LogPage}
    (h : Repacked K R (Z ++ Z₁) Z' last₁ last' m₁ m' evs') (hpick : P.picked = true)
    (hreg : Regrown (K ++ (R ++ Z)) Z₁ P last last₁ m m₁ evs) :
    Repacked K (P :: R) Z Z' last last' m m'
      (evs' ++ .free (p + 4096) n :: .free (P.page + 4096) 1 :: evs) := by
  have hfilter : (P :: R).filter (!·.picked) = R.filter (!·.picked) := by
    rw [List.filter_cons, if_neg (by rw [hpick]; simp)]
  have hassoc (last : LogPage) :
      K ++ R ++ (Z ++ Z₁) ++ [last] = K ++ (R ++ Z) ++ Z₁ ++ [last] := by
    simp only [List.append_assoc]
  refine ⟨?_, fun hnone => ?_, ?_, fun Q hQ hpick' => ?_, fun q hq => ?_, fun q hq => ?_⟩
  · have hdrop : Evolves (K ++ P :: R ++ Z) last (K ++ (R ++ Z)) last [] := by
      rw [List.append_assoc, List.cons_append]
      exact .remove .refl
    have hfree (node k : Nat) : (Event.free node k).isRelease = true := rfl
    have hfreed := ((hdrop.trans hreg.evolves).release (hfree (P.page + 4096) 1)).release
      (hfree (p + 4096) n)
    rw [List.append_nil, ← List.append_assoc K, List.append_assoc (K ++ R)] at hfreed
    rw [hfilter]
    exact hfreed.trans h.evolves
  · obtain ⟨rfl, rfl⟩ := hreg.idle (hnone P List.mem_cons_self hpick)
    have := h.idle fun Q hQ => hnone Q (List.mem_cons_of_mem _ hQ)
    rwa [List.append_nil] at this
  · refine .trans ?_ h.carried
    rw [List.append_assoc]
    exact .append_left Z hreg.carried
  · rcases List.mem_cons.1 hQ with rfl | hQ
    · refine .carried ?_ h.carried
      rw [List.append_assoc]
      exact hreg.moved.carried (.of_subset (List.subset_append_right _ _))
    · exact h.moved Q hQ hpick'
  · rw [hfilter] at hq
    have hmid := h.data q hq
    rw [hassoc] at hmid
    rcases hreg.data q hmid with hq | hq
    · obtain ⟨Q, hQ, hq⟩ := mem_dataPages.1 hq
      refine mem_dataPages.2 ⟨Q, ?_, hq⟩
      simp only [List.mem_append, List.mem_cons] at hQ ⊢
      tauto
    · exact mem_dataPages.2 ⟨P, by simp, hq⟩
  · rw [hfilter] at hq
    have hmid := h.data q hq
    rw [hassoc] at hmid
    exact (h.logEntry q hq).trans (hreg.logEntry q hmid)

theorem headPage_of_pages {q : Nat} {l : List Nat} (h : (Z ++ [last]).map (·.page) = q :: l) :
    headPage Z last.page = q := by
  cases Z with
  | nil => exact (List.cons.inj h).1
  | cons P Z => exact (List.cons.inj h).1

/-- How many pages the entries of the selected pages of `R` fill at most once they are moved. -/
def sweepPages (R : List LogPage) : Nat :=
  ((R.filter (·.picked)).map fun P => entryPages (runsOf P.entries).length).sum

/-- No more than twice the data pages of the log. -/
theorem sweepPages_le {m : Memory} {R : List LogPage} (h : ∀ P ∈ R, P.Rep m) :
    sweepPages R ≤ 2 * (pagesOf (entriesIn R)).length := by
  induction R with
  | nil => exact Nat.zero_le _
  | cons P R ih =>
    have hrest := ih fun Q hQ => h Q (List.mem_cons_of_mem _ hQ)
    have hP := h P List.mem_cons_self
    have hruns := length_runsOf_le P.entries
    have hpos : P.entries.length ≤ (pagesOf P.entries).length := by
      rw [pagesOf, List.length_flatMap]
      have := List.card_nsmul_le_sum (P.entries.map (·.pages.length)) 1
        (by simpa using fun E hE => (hP.stored E hE).pos)
      simpa using this
    have hbits : (P.entries.map (·.setBits)).sum ≤ (pagesOf P.entries).length := by
      rw [pagesOf, List.length_flatMap]
      refine List.sum_le_sum fun E _ => ?_
      rw [LogEntry.setBits]
      exact List.countP_le_length.trans_eq List.length_range
    rw [entriesIn_cons, pagesOf_append, List.length_append]
    rw [sweepPages] at hrest ⊢
    rw [List.filter_cons]
    split_ifs with hpick
    · rw [List.map_cons, List.sum_cons, entryPages]
      omega
    · omega

/-- The loop of `start_gc_task` over the pages `R`, up to the page that was the last of the log. -/
theorem LogOf.gcLoop {fuel : Nat} (h : LogOf A inode r s.mem f (K ++ R ++ Z) last)
    (htail : headPage Z last.page = pageTail) (hprev : ∀ Q, K.getLast? = some Q → prev = Q.page)
    (hfuel : R.length < fuel) :
    (Atfs.gcLoop A inode pageTail fuel (headPage R pageTail) prev s = .error .noPages ∧
      ¬ A.Lasts (sweepPages R) s.mem) ∨
    ∃ s' f' Z' last' evs, Atfs.gcLoop A inode pageTail fuel (headPage R pageTail) prev s = .ok s' ∧
      Swept A inode r f f' s s' K R Z Z' last last' evs ∧
      Repacked K R Z Z' last last' s.mem s'.mem evs ∧
      FileKept inode (entriesIn (K ++ R ++ Z ++ [last]))
        (entriesIn (K ++ R.filter (!·.picked) ++ Z' ++ [last'])) s.mem s'.mem ∧
      PagesBalance s s' (owned (K ++ R ++ Z ++ [last])).length
        (owned (K ++ R.filter (!·.picked) ++ Z' ++ [last'])).length ∧
      ∀ n, A.Lasts (n + sweepPages R) s.mem → A.Lasts n s'.mem := by
  induction R generalizing K Z last s f prev fuel with
  | nil =>
    obtain ⟨fuel, rfl⟩ := Nat.exists_eq_succ_of_ne_zero (show fuel ≠ 0 by omega)
    refine .inr ⟨s, f, Z, last, [], ?_,
      ⟨h, ?_, .refl s, rfl, fun P hP => absurd hP List.not_mem_nil,
        fun node k hc => absurd hc List.not_mem_nil, fun q hq => absurd hq List.not_mem_nil,
      fun q hq => hq, .refl _ _⟩, ⟨.refl, fun _ => ⟨rfl, rfl⟩, .of_subset (List.Subset.refl _),
      fun P hP => absurd hP List.not_mem_nil, fun q hq => hq, fun q hq a ha => rfl⟩,
      .refl _ _ _, .refl _ _, fun n hlast => hlast⟩
    · rw [Atfs.gcLoop, headPage_nil, if_neg (not_not.2 rfl)]
    · exact (List.append_nil _).symm
  | cons P R ih =>
    obtain ⟨fuel, rfl⟩ := Nat.exists_eq_succ_of_ne_zero (show fuel ≠ 0 by omega)
    rw [List.length_cons] at hfuel
    have hPmem : P ∈ K ++ P :: R ++ Z ++ [last] := by simp
    have hP := h.isPage hPmem
    have hne : P.page ≠ pageTail := htail ▸ h.page_ne
    have hassoc : K ++ P :: R ++ Z = K ++ P :: (R ++ Z) := by
      rw [List.append_assoc, List.cons_append]
    have hnext : headPage (R ++ Z) last.page = headPage R pageTail := by
      rw [headPage_append, htail]
    rw [headPage_cons, Atfs.gcLoop, if_pos hne]
    simp only [hP.getNvmPageNodeAddr_eq, (h.log.rep P hPmem).selected_eq]
    cases hpick : P.picked with
    | true =>
      obtain ⟨m, hunlink, hrem⟩ := (hassoc ▸ h).remove hpick hprev
      have hpages : sweepPages (P :: R) =
          sweepPages R + entryPages (runsOf P.entries).length := by
        rw [sweepPages, List.filter_cons, if_pos hpick, List.map_cons, List.sum_cons, Nat.add_comm]
        rfl
      rw [if_pos rfl, hunlink, hnext]
      rcases hrem with hfail | ⟨s₁, f₁, Z₁, last₁, p, n, evs, hok, hrem, hreg, hkept, hbalance⟩
      · refine .inl ⟨?_, fun hlast => hfail.2 (hlast.mono ?_)⟩
        · simp only [hfail.1]
          rfl
        · rw [hpages]
          exact Nat.le_add_left _ _
      · have hlog : LogOf A inode r s₁.mem f₁ (K ++ R ++ (Z ++ Z₁)) last₁ := by
          have := hrem.log
          rwa [← List.append_assoc, List.append_assoc (K ++ R)] at this
        have htail₁ : headPage (Z ++ Z₁) last₁.page = pageTail := by
          rw [headPage_append, headPage_of_pages hrem.pages, htail]
        simp only [hok]
        rcases ih hlog htail₁ hprev (show R.length < fuel by omega) with hfail |
          ⟨s', f', Z', last', evs', hok', h', hpack, hkept', hbalance', hlasts⟩
        · exact .inl ⟨hfail.1, fun hlast => hfail.2 (hrem.lasts _ (hpages ▸ hlast))⟩
        · have hrest : K ++ R ++ (Z ++ Z₁) ++ [last₁] = K ++ (R ++ Z) ++ Z₁ ++ [last₁] := by
            simp only [List.append_assoc]
          rw [hrest] at hkept' hbalance'
          refine .inr ⟨s', f', Z', last', _, hok', h'.remove h hpick hrem,
            hpack.remove hpick hreg, ?_⟩
          rw [List.filter_cons, if_neg (by rw [hpick]; simp), hassoc]
          refine ⟨hkept.trans hkept', hbalance.trans hbalance', fun n hlast => ?_⟩
          refine hlasts n (hrem.lasts _ ?_)
          rwa [Nat.add_assoc, ← hpages]
    | false =>
      have hlog : LogOf A inode r s.mem f (K ++ [P] ++ R ++ Z) last := by
        rwa [List.append_assoc K, List.singleton_append]
      have hlink : ListNode.nextOffset.get s.mem (P.page + 4096) = headPage R pageTail := by
        have hlog := h.log
        rw [hassoc] at hlog
        rw [← hP.pageLink_eq, hlog.pageLink_eq, hnext]
      have hpages : sweepPages (P :: R) = sweepPages R := by
        rw [sweepPages, List.filter_cons, if_neg (by simp [hpick])]
        rfl
      rw [if_neg (by simp), hlink, (h.log.rep P hPmem).offset]
      have hprev' : ∀ Q, (K ++ [P]).getLast? = some Q → P.page = Q.page := by
        intro Q hQ
        rw [List.getLast?_append, List.getLast?_singleton, Option.some_or, Option.some.injEq] at hQ
        rw [hQ]
      rcases ih hlog htail hprev' (show R.length < fuel by omega) with hfail |
        ⟨s', f', Z', last', evs, hok, h', hpack, hkept, hbalance, hlasts⟩
      · exact .inl ⟨hfail.1, hpages ▸ hfail.2⟩
      · refine .inr ⟨s', f', Z', last', evs, hok, h'.keep hpick, hpack.keep hpick, ?_⟩
        rw [List.filter_cons, if_pos (by rw [hpick]; rfl)]
        simp only [List.append_assoc, List.singleton_append] at hkept hbalance
        simp only [List.append_assoc, List.cons_append]
        exact ⟨hkept, hbalance, hpages ▸ hlasts⟩

end Loop

/-! ## The task -/

/-- What `start_gc_task` leaves of the log with the pages `L` and then `last`. -/
structure Repaired (A : PageAllocator) (inode r : Nat) (f f' : Frontier) (s s' : State)
    (L L' : List LogPage) (last last' : LogPage) (evs : List Event) : Prop where
  /-- The chain from the new head visits the pages `L'` and ends at `last'`, where the new tail is.
  -/
  log : LogOf A inode r s'.mem f' L' last'
  /-- The pages that are not selected, the old last page and the pages opened since. -/
  pages : (L' ++ [last']).map (·.page) =
    (L.filter fun P => !selected s.mem (P.page + 4096)).map (·.page) ++ last.page :: openedPages evs
  recorded : Recorded evs s s'
  once : ∀ P ∈ L, selected s.mem (P.page + 4096) = true → evs.count (.free (P.page + 4096) 1) = 1
  /-- A selected page is back in the log only if it has been opened since it was freed. -/
  again : ∀ P ∈ L, selected s.mem (P.page + 4096) = true → P.page ∈ (L' ++ [last']).map (·.page) →
    ∃ late early, evs = late ++ .free (P.page + 4096) 1 :: early ∧ P.page ∈ openedPages late ∧
      P.page ∉ openedPages early

section Task

variable {A : PageAllocator} {inode r fuel : Nat} {f f' : Frontier} {s s' : State}
  {L Z : List LogPage} {last last' : LogPage} {evs : List Event}

theorem Swept.repaired (h : Swept A inode r f f' s s' [] L [] Z last last' evs)
    (hlog : LogOf A inode r s.mem f L last) :
    Repaired A inode r f f' s s' L (L.filter (!·.picked) ++ Z) last last' evs := by
  have hsel {P : LogPage} (hP : P ∈ L) : selected s.mem (P.page + 4096) = P.picked :=
    (hlog.log.rep P (List.mem_append_left _ hP)).selected_eq
  have hfilter : L.filter (fun P => !selected s.mem (P.page + 4096)) = L.filter (!·.picked) :=
    List.filter_congr fun P hP => by rw [hsel hP]
  have hpages : (L.filter (!·.picked) ++ Z ++ [last']).map (·.page) =
      (L.filter (!·.picked)).map (·.page) ++ last.page :: openedPages evs := by
    rw [List.append_assoc, List.map_append, h.pages]
    rfl
  refine ⟨h.log, hfilter ▸ hpages, h.recorded, fun P hP hpick => ?_, fun P hP hpick hmem => ?_⟩
  · exact (h.once P hP (hsel hP ▸ hpick)).1
  · refine (h.once P hP (hsel hP ▸ hpick)).2 ?_
    rw [hpages] at hmem
    have hnodup := (pages_sublist_owned _).nodup hlog.log.nodup
    rw [List.map_append, List.map_cons, List.map_nil] at hnodup
    obtain ⟨hL, -, hlast⟩ := List.nodup_append'.1 hnodup
    have hPL := List.mem_map_of_mem (f := LogPage.page) hP
    rcases List.mem_append.1 hmem with hc | hc
    · -- a page that has been kept is not selected
      obtain ⟨Q, hQ, heq⟩ := List.mem_map.1 hc
      obtain ⟨hQ, hkeep⟩ := List.mem_filter.1 hQ
      obtain rfl : Q = P := List.inj_on_of_nodup_map hL hQ hP heq
      rw [hsel hP] at hpick
      simp [hpick] at hkeep
    · refine (List.mem_cons.1 hc).resolve_left fun hc => ?_
      exact hlast hPL (hc ▸ List.mem_cons_self)

/-- The loop of `start_gc_task` over the whole log. -/
theorem LogOf.gcInode (h : LogOf A inode r s.mem f L last) (hfuel : L.length < fuel) :
    (Atfs.gcInode A inode fuel s = .error .noPages ∧ ¬ A.Lasts (sweepPages L) s.mem) ∨
    ∃ s' f' Z last' evs, Atfs.gcInode A inode fuel s = .ok s' ∧
      Swept A inode r f f' s s' [] L [] Z last last' evs ∧
      Repacked [] L [] Z last last' s.mem s'.mem evs ∧
      FileKept inode (entriesIn (L ++ [last]))
        (entriesIn (L.filter (!·.picked) ++ Z ++ [last'])) s.mem s'.mem ∧
      PagesBalance s s' (owned (L ++ [last])).length
        (owned (L.filter (!·.picked) ++ Z ++ [last'])).length ∧
      ∀ n, A.Lasts (n + sweepPages L) s.mem → A.Lasts n s'.mem := by
  have hle := h.holds.le_tail
  have hle' := h.holds.tail_le
  have htail : logPageOff (AtfsInode.logTail.get s.mem inode) = last.page := by
    rw [h.tail, ← h.log.page]
    exact h.holds.isPage.logPageOff_eq (by rw [mem_pageBytes]; omega)
  have hhead := headPage_of_segment h.log.chain
  have hloop : LogOf A inode r s.mem f ([] ++ L ++ []) last := by
    rwa [List.nil_append, List.append_nil]
  rw [Atfs.gcInode, htail, hhead]
  have hfirst : ∀ Q, ([] : List LogPage).getLast? = some Q → 0 = Q.page := fun Q hQ => by cases hQ
  have hrun := hloop.gcLoop rfl hfirst hfuel
  rwa [headPage_nil, List.nil_append, List.append_nil] at hrun

/-- `start_gc_task` repairs the log and terminates. It fails only where the pages run out. -/
theorem gcInode_repaired (h : LogOf A inode r s.mem f L last) (hfuel : L.length < fuel) :
    (gcInode A inode fuel s = .error .noPages ∧ ¬ A.Lasts (sweepPages L) s.mem) ∨
    ∃ s' f' L' last' evs, gcInode A inode fuel s = .ok s' ∧
      Repaired A inode r f f' s s' L L' last last' evs := by
  rcases h.gcInode hfuel with hfail | ⟨s', f', Z, last', evs, hok, hswept, -⟩
  · exact .inl hfail
  · exact .inr ⟨s', f', _, last', evs, hok, hswept.repaired h⟩

theorem sparse_logOf {n : Nat} (hn : n ≤ 85) : LogOf pageAllocator fileInode (pageOff 4096)
    (sparseState n).mem sparseFrontier [sparsePage n] ⟨pageOff 4098, []⟩ where
  holds := sparseFrontier_holds
  log := sparse_log hn
  tail := sparseState_logTail
  inodeIn := ⟨isPage_pageOff (by omega), le_rfl, by
    rw [show sizeofAtfsInode = 216 from rfl, fileInode]
    omega⟩
  inUse := sparse_not_free le_rfl
  apart := fun hc => by
    obtain ⟨P, hP, hq⟩ := mem_owned.1 hc
    rcases List.mem_cons.1 hP with rfl | hP
    · obtain ⟨k, hk, -, -, heq⟩ := sparse_own hn hq
      have := pageOff_injective heq
      omega
    · obtain rfl := List.mem_singleton.1 hP
      have heq : pageOff 4096 = pageOff 4098 := by simpa [LogPage.own] using hq
      exact absurd (pageOff_injective heq) (by decide)

theorem sweepPages_sparse {n : Nat} (hn : n ≤ 85) : sweepPages [sparsePage n] ≤ 1 := by
  have hle : ([sparsePage n].filter (·.picked)).Sublist [sparsePage n] := List.filter_sublist
  refine ((hle.map _).sum_le_sum fun _ _ => Nat.zero_le _).trans ?_
  rw [List.map_singleton, List.sum_singleton, runsOf_sparse, entryPages]
  omega

theorem gcInode_repaired_sample :
    ∃ s' f' L' last' evs, gcInode pageAllocator fileInode 2 (sparseState 85) = .ok s' ∧
      Repaired pageAllocator fileInode (pageOff 4096) sparseFrontier f' (sparseState 85) s'
        [sparsePage 85] L' ⟨pageOff 4098, []⟩ last' evs := by
  refine (gcInode_repaired (sparse_logOf le_rfl) (by decide)).resolve_left fun h => h.2 ?_
  exact (sparseState_lasts pageAllocator_follows 85).mono
    ((sweepPages_sparse le_rfl).trans (by decide))

end Task

end Atfs
