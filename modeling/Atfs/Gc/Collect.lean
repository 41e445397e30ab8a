import Atfs.Gc.Runs

/-!
# Collecting a log page

While `gc_log_block` cuts chains and appends entries, the pages it moves stay in use: what it writes
besides the end of the log are links of these pages. The new entries own the valid runs, and one
null-terminated chain collects the invalid pages: a run that is freed is spliced in behind the first
page of the chain.
-/

namespace Atfs

open ByteMemory LinkedChain MarkRuns

/-! ## Pages and slots in use -/

/-- The link bytes of a set of pages. -/
def linkBytesOf (X : Set Nat) : Set Nat := {a | ∃ q ∈ X, a ∈ linkBytes q}

/-- Pages in use that are not the last page of the log. -/
def Held (f : Frontier) (X : Set Nat) : Prop := ∀ q ∈ X, IsPage q ∧ q ∉ f.free ∧ q ≠ f.page

/-- The slot at `off` lies in a page in use, in front of the end of the log. -/
def Settled (f : Frontier) (off : Nat) : Prop :=
  ∃ T, IsPage T ∧ T ∉ f.free ∧ T ≤ off ∧ off + 48 ≤ T + 4096 ∧ (T = f.page → off + 48 ≤ f.tail)

section InUse

variable {A : PageAllocator} {D X Y : Set Nat} {f f' : Frontier} {ts : List Nat} {m m' : Memory}
  {off p q : Nat} {l : List Nat}

theorem linkBytesOf_mono (h : X ⊆ Y) : linkBytesOf X ⊆ linkBytesOf Y :=
    fun _ ⟨q, hq, ha⟩ => ⟨q, h hq, ha⟩

theorem Held.mono (h : Held f Y) (hX : X ⊆ Y) : Held f X := fun q hq => h q (hX hq)

/-- A step makes free pages the last of the log, none that are in use. -/
theorem Held.step (h : Held f X) (hs : LogStep A D f f' ts m m') : Held f' X := by
  intro q hq
  obtain ⟨hpage, hfree, hne⟩ := h q hq
  refine ⟨hpage, fun hc => hfree (hs.sub hc), ?_⟩
  rintro rfl
  exact hs.moved.elim (fun hc => hne hc.1) hfree

theorem Settled.step (h : Settled f off) (hs : LogStep A D f f' ts m m') : Settled f' off := by
  obtain ⟨T, hT, hfree, hle, hle', htail⟩ := h
  refine ⟨T, hT, fun hc => hfree (hs.sub hc), hle, hle', ?_⟩
  rintro rfl
  rcases hs.moved with ⟨hp, ht⟩ | hp
  · exact (htail hp).trans ht
  · exact absurd hp hfree

/-- No link lies in a slot. -/
theorem Settled.disjoint_linkBytes (h : Settled f off) (hq : IsPage q) :
    Disjoint (linkBytes q) (Set.Ico off (off + 48)) := by
  obtain ⟨T, hT, -, hle, hle', -⟩ := h
  refine Set.disjoint_left.2 fun a ha hc => ?_
  rw [mem_linkBytes] at ha
  rw [Set.mem_Ico] at hc
  by_cases hqT : q = T
  · subst hqT
    omega
  · have := hq.apart hT hqT
    omega

theorem Settled.disjoint_linkBytesOf (h : Settled f off) (hX : ∀ q ∈ X, IsPage q) :
    Disjoint (linkBytesOf X) (Set.Ico off (off + 48)) := by
  refine Set.disjoint_left.2 fun a ha hc => ?_
  obtain ⟨q, hq, ha⟩ := ha
  exact Set.disjoint_left.1 (h.disjoint_linkBytes (hX q hq)) ha hc

/-- A step keeps the slots in front of the end of the log. -/
theorem Settled.keeps (h : Settled f off) (hf : f.Holds A m) (hs : LogStep A D f f' ts m m')
    (hD : Disjoint D (Set.Ico off (off + 48))) : Set.EqOn m' m (Set.Ico off (off + 48)) := by
  obtain ⟨T, hT, hfree, hle, hle', htail⟩ := h
  intro a ha
  have hout : a ∉ D := fun hc => Set.disjoint_left.1 hD hc ha
  rw [Set.mem_Ico] at ha
  by_cases hTp : T = f.page
  · have := htail hTp
    exact hs.keeps_tail hf (.inl ⟨by omega, by omega⟩) hout
  · exact hs.keeps hf hT hfree hTp (by rw [mem_pageBytes]; omega) hout

theorem Held.disjoint_link (h : Held f X) {T : Nat} (hT : IsPage T)
    (hT' : T = f.page ∨ T ∈ f.free) :
    Disjoint (linkBytesOf X) (linkBytes T) := by
  refine Set.disjoint_left.2 fun a ha hc => ?_
  obtain ⟨q, hq, ha⟩ := ha
  obtain ⟨hpage, hfree, hne⟩ := h q hq
  have := hpage.apart hT (by rintro rfl; exact hT'.elim hne hfree)
  rw [mem_linkBytes] at ha hc
  omega

/-- Setting links of pages in use is a step that leaves the log where it is. -/
theorem Held.logStep (h : Held f X) (hf : f.Holds A m) (hm : ChangesOnly (linkBytesOf X) m m') :
    LogStep A (linkBytesOf X) f f [] m m' := by
  refine (LogStep.refl hf (linkBytesOf X)).write hm Set.subset_union_right
    (Set.disjoint_left.2 fun a ha hc => ?_) fun T hT hT' => h.disjoint_link hT hT'
  obtain ⟨q, hq, ha⟩ := ha
  obtain ⟨hpage, hfree, -⟩ := h q hq
  rw [mem_linkBytes] at ha
  rcases hc with hc | hc
  · have := hpage.bounds
    rw [mem_metadata] at hc
    omega
  · exact not_mem_bytesOf (A.rep_page hf.rep) hpage hfree (by rw [mem_pageBytes]; omega) hc

/-- A step leaves the pages in use whose links it does not set. -/
theorem Held.keeps (h : Held f Y) (hf : f.Holds A m) (hs : LogStep A (linkBytesOf X) f f' ts m m')
    (hX : ∀ q ∈ X, IsPage q) (hq : q ∈ Y) (hqX : q ∉ X) : Set.EqOn m' m (pageBytes q) := by
  obtain ⟨hpage, hfree, hne⟩ := h q hq
  intro a ha
  refine hs.keeps hf hpage hfree hne ha ?_
  rintro ⟨p, hp, hc⟩
  have := hpage.apart (hX p hp) (by rintro rfl; exact hqX hp)
  rw [mem_pageBytes] at ha
  rw [mem_linkBytes] at hc
  omega

/-- Nor does it touch the bodies of the others. -/
theorem Held.keeps_body (h : Held f Y) (hf : f.Holds A m)
    (hs : LogStep A (linkBytesOf X) f f' ts m m') (hX : ∀ q ∈ X, IsPage q) (hq : q ∈ Y) :
    Set.EqOn m' m (bodyBytes q) := by
  obtain ⟨hpage, hfree, hne⟩ := h q hq
  intro a ha
  rw [mem_bodyBytes] at ha
  refine hs.keeps hf hpage hfree hne (by rw [mem_pageBytes]; omega) ?_
  rintro ⟨p, hp, hc⟩
  rw [mem_linkBytes] at hc
  by_cases hqp : q = p
  · subst hqp
    omega
  · have := hpage.apart (hX p hp) hqp
    omega

end InUse

/-! ## The chain of invalid pages -/

/-- The variables of the collection describe the chain of the pages `freed`. -/
structure FreeList (m : Memory) (g : GcVars) (freed : List Nat) : Prop where
  nums : g.freeNums = freed.length
  empty : g.freeHead = none → freed = []
  chain : ∀ h, g.freeHead = some h → freed ≠ [] ∧ ∃ p, h = p + 4096 ∧ PageChain m p freed

section FreeList

variable {m m' : Memory} {g : GcVars} {freed l xs t : List Nat} {d p q : Nat}

theorem FreeList.congr (h : FreeList m g freed)
    (heq : ∀ q ∈ freed, Set.EqOn m' m (Set.Ico (q + 4096) (q + 4112))) : FreeList m' g freed where
  nums := h.nums
  empty := h.empty
  chain := fun k hk => by
    obtain ⟨hne, p, hp, hchain⟩ := h.chain k hk
    exact ⟨hne, p, hp, hchain.congr heq⟩

/-- The memory after the chain that ends in `q` has been spliced in behind page `p`. -/
def spliceChain (m : Memory) (p d q : Nat) : Memory :=
  ListNode.nextOffset.set (ListNode.nextOffset.set m (q + 4096) (pageLink m p)) (p + 4096) d

theorem changesOnly_spliceChain (m : Memory) (p d q : Nat) :
    ChangesOnly (linkBytes q ∪ linkBytes p) m (spliceChain m p d q) :=
  ((changesOnly_setLink m q _).mono Set.subset_union_left).trans
    ((changesOnly_setLink _ p d).mono Set.subset_union_right)

/-- A chain spliced in behind the first page of another. -/
theorem PageChain.splice (hl : PageChain m d (xs ++ [q])) (ht : PageChain m p (p :: t))
    (hdisj : (xs ++ [q]).Disjoint (p :: t)) :
    PageChain (spliceChain m p d q) p (p :: (xs ++ [q] ++ t)) := by
  have hp := ht.page p List.mem_cons_self
  have hq := hl.page q (by simp)
  have hd : IsPage d := hl.page d (hl.head_mem (by simp))
  have hpl : p ∉ xs ++ [q] := fun hc => hdisj hc List.mem_cons_self
  have hqp : q ≠ p := fun hc => hpl (by simp [hc])
  have htail : p ∉ t := (List.nodup_cons.1 ht.nodup).1
  have hqt : q ∉ t := fun hc => hdisj (by simp) (List.mem_cons_of_mem _ hc)
  have hqxs : q ∉ xs := fun hc => (List.nodup_append'.1 hl.nodup).2.2 hc (List.mem_singleton_self q)
  have hlink {r : Nat} (hr : IsPage r) : pageLink (spliceChain m p d q) r =
      Function.update (Function.update (pageLink m) q (pageLink m p)) p d r := by
    have hlt := hd.bounds
    rw [spliceChain, hr.pageLink_set hp (by omega)]
    by_cases hrp : r = p
    · rw [hrp, Function.update_self, Function.update_self]
    · rw [Function.update_of_ne hrp, Function.update_of_ne hrp,
        hr.pageLink_set hq (pageLink_lt m p)]
  have hpage : ∀ r ∈ p :: (xs ++ [q] ++ t), IsPage r := by
    intro r hr
    rcases List.mem_cons.1 hr with rfl | hr
    · exact hp
    · rcases List.mem_append.1 hr with hr | hr
      · exact hl.page r hr
      · exact ht.page r (List.mem_cons_of_mem _ hr)
  refine ⟨?_, ?_, hpage, fun r hr => ?_⟩
  · refine Segment.congr (f := Function.update (Function.update (pageLink m) q (pageLink m p)) p d)
      ?_
      fun r hr => (hlink (hpage r hr)).symm
    refine ⟨rfl, ?_⟩
    rw [Function.update_self]
    have hrun := (hl.chain.relink_last hqxs (r := pageLink m p)).update (x := p) (y := d) hpl
    exact hrun.append ((ht.chain.2.update hqt).update htail)
  · refine List.nodup_cons.2 ⟨fun hc => (List.mem_append.1 hc).elim hpl htail, ?_⟩
    exact List.nodup_append'.2 ⟨hl.nodup, (List.nodup_cons.1 ht.nodup).2,
      fun r hr hr' => hdisj hr (List.mem_cons_of_mem _ hr')⟩
  · have hoff : ListNode.offset.get m (r + 4096) = r := by
      rcases List.mem_cons.1 hr with rfl | hr
      · exact ht.offset r List.mem_cons_self
      · rcases List.mem_append.1 hr with hr | hr
        · exact hl.offset r hr
        · exact ht.offset r (List.mem_cons_of_mem _ hr)
    refine (Field.get_congr fun a ha => changesOnly_spliceChain m p d q a ?_).trans hoff
    simp only [Field.bytes, ListNode.offset_off, ListNode.offset_size, Set.mem_Ico] at ha
    have hr' := hpage r hr
    rintro (hc | hc)
    · rw [mem_linkBytes] at hc
      by_cases hrq : r = q
      · omega
      · have := hr'.apart hq hrq
        omega
    · rw [mem_linkBytes] at hc
      by_cases hrp : r = p
      · omega
      · have := hr'.apart hp hrp
        omega

end FreeList

/-! ## What a collection has done so far -/

/-- The log has advanced by the entries `es`; links of the pages `X` were set as well, as long as
no new entry owned them. -/
inductive Appends (A : PageAllocator) (X : Set Nat) (f : Frontier) (m : Memory) :
    Frontier → Memory → List LogEntry → List Event → Prop
  | nil (holds : f.Holds A m) : Appends A X f m f m [] []
  | link {f' : Frontier} {m₁ m₂ : Memory} {es : List LogEntry} {evs : List Event} {Y : Set Nat}
      (h : Appends A X f m f' m₁ es evs) (hm : ChangesOnly (linkBytesOf Y) m₁ m₂) (hY : Y ⊆ X)
      (hown : ∀ q ∈ Y, q ∉ pagesOf es) : Appends A X f m f' m₂ es evs
  | entry {f₁ f₂ : Frontier} {m₁ m₂ : Memory} {es : List LogEntry} {evs evs' : List Event}
      {E : LogEntry} (h : Appends A X f m f₁ m₁ es evs) (hE : EntryStep A f₁ f₂ m₁ m₂ E evs') :
      Appends A X f m f₂ m₂ (es ++ [E]) (evs' ++ evs)

section Appends

variable {A : PageAllocator} {X : Set Nat} {f f' : Frontier} {m m' : Memory} {es : List LogEntry}
  {evs : List Event}

/-- What has been done is a step of the log that may set links of the pages. -/
theorem Appends.logStep (h : Appends A X f m f' m' es evs) (hf : f.Holds A m) (hX : Held f X) :
    ∃ ts, LogStep A (linkBytesOf X) f f' ts m m' := by
  have hdisj : ∀ T, IsPage T → (T = f.page ∨ T ∈ f.free) → Disjoint (linkBytesOf X) (linkBytes T) :=
    fun T hT hT' => hX.disjoint_link hT hT'
  induction h with
  | nil => exact ⟨[], .refl hf _⟩
  | link _ hm hY _ ih =>
    obtain ⟨ts, hs⟩ := ih
    exact ⟨_, hs.trans ((hX.step hs).logStep hs.holds (hm.mono (linkBytesOf_mono hY))) hdisj⟩
  | entry _ hE ih =>
    obtain ⟨ts, hs⟩ := ih
    exact ⟨_, hs.trans (hE.step.mono (Set.empty_subset _)) hdisj⟩

end Appends

/-- How many log pages `k` entries fill. -/
def entryPages (k : Nat) : Nat := (k + 84) / 85

theorem entryPages_mono {k k' : Nat} (h : k ≤ k') : entryPages k ≤ entryPages k' := by
  rw [entryPages, entryPages]
  omega

section Opened

variable {A : PageAllocator} {X : Set Nat} {f f' : Frontier} {m m' : Memory} {es : List LogEntry}
  {evs : List Event}

/-- All pages that are opened but the last are filled with 85 entries. -/
theorem Appends.opened (h : Appends A X f m f' m' es evs) (hf : f.Holds A m) (hX : Held f X) :
    pagesOpened evs = 0 ∨ ∃ k, f'.tail = f'.page + 48 * k ∧ 1 ≤ k ∧ k ≤ 85 ∧
      85 * (pagesOpened evs - 1) + k ≤ es.length := by
  induction h with
  | nil => exact .inl rfl
  | link _ _ _ _ ih => exact ih
  | @entry f₁ f₂ _ _ es evs _ E h hE ih =>
    obtain ⟨_, hstep⟩ := h.logStep hf hX
    have hle := hE.step.holds.tail_le
    have htail := hE.tail
    rw [pagesOpened_append, hE.grown.pagesOpened, List.length_append, List.length_singleton]
    split_ifs with hfull
    · have hpage := (hE.page_new hfull).2
      refine .inr ⟨1, by omega, le_rfl, by omega, ?_⟩
      rcases ih with hzero | ⟨k, hk, -, hk85, hsum⟩ <;> omega
    · refine ih.imp_right ?_
      rintro ⟨k, hk, -, hk85, hsum⟩
      have hroom : f₁.tail ≤ f₁.page + 4048 := by omega
      obtain ⟨hpage, hoff⟩ := hE.page_same hstep.holds hroom
      exact ⟨k + 1, by omega, by omega, by omega, by omega⟩

/-- No more pages are opened than the entries fill. -/
theorem Appends.pagesOpened_le (h : Appends A X f m f' m' es evs) (hf : f.Holds A m)
    (hX : Held f X) : pagesOpened evs ≤ entryPages es.length := by
  rw [entryPages]
  rcases h.opened hf hX with hzero | ⟨k, -, hk, -, hsum⟩ <;> omega

end Opened

theorem pagesOf_append (es es' : List LogEntry) : pagesOf (es ++ es') = pagesOf es ++ pagesOf es' :=
  List.flatMap_append

/-- A new entry stands in front of the new tail. -/
theorem EntryStep.settled {A : PageAllocator} {f f' : Frontier} {m m' : Memory} {E : LogEntry}
    {evs : List Event} (h : EntryStep A f f' m m' E evs) (hf : f.Holds A m) : Settled f' E.off := by
  have hle := hf.le_tail
  have hle' := h.step.holds.tail_le
  have htail := h.tail
  refine ⟨f'.page, h.step.holds.isPage, h.step.holds.notFree, ?_, by omega, fun _ => htail.ge⟩
  rcases h.place with ⟨hp, he⟩ | ⟨-, he⟩
  · omega
  · exact he.ge

/-- The run of valid pages from `k` up to `j` has become the new entry `N`. -/
structure LogEntry.Moved (E : LogEntry) (k j : Nat) (N : LogEntry) : Prop where
  pages : N.pages = E.cut k j
  startWriteOff : N.startWriteOff = addU64 (E.startWriteOff &&& pageMask) (k * pageSize)
  endWriteOff : N.endWriteOff = if j = E.pages.length then E.endWriteOff
    else addU64 (E.startWriteOff &&& pageMask) (j * pageSize)
  valid : N.invalidPages = 0 ∧ N.bitmap = 0

/-- From `s₀` to `s` the collection has moved some of the pages `all` to the entries `ns` and some
to the chain of the pages `freed`; the pages `rest` are still to come. -/
structure Collecting (A : PageAllocator) (all : List Nat) (f₀ f : Frontier) (s₀ s : State)
    (g : GcVars) (ns : List LogEntry) (evs : List Event) (freed rest : List Nat) : Prop where
  holds₀ : f₀.Holds A s₀.mem
  held₀ : Held f₀ {q | q ∈ all}
  nodup : all.Nodup
  perm : (pagesOf ns ++ (freed ++ rest)).Perm all
  appends : Appends A {q | q ∈ all} f₀ s₀.mem f s.mem ns evs
  recorded : Recorded evs s₀ s
  index : s.index = s₀.index
  tail : g.logTail = f.tail
  stored : ∀ N ∈ ns, N.Stored s.mem
  settled : ∀ N ∈ ns, Settled f N.off
  freeList : FreeList s.mem g freed
  /-- No pages are taken but those that have been opened. -/
  lasts : ∀ n, A.Lasts (n + pagesOpened evs) s₀.mem → A.Lasts n s.mem

section Keeps

variable {A : PageAllocator} {Y : Set Nat} {f f' : Frontier} {ts : List Nat} {m m' : Memory}
  {E N : LogEntry} {g : GcVars} {freed : List Nat} {data j : Nat}

theorem LogEntry.Stored.keeps (h : N.Stored m) (hset : Settled f N.off) (hf : f.Holds A m)
    (hs : LogStep A (linkBytesOf Y) f f' ts m m') (hY : ∀ q ∈ Y, IsPage q)
    (hheld : Held f {q | q ∈ N.pages}) (hdisj : ∀ q ∈ N.pages, q ∉ Y) : N.Stored m' := by
  refine h.congr (hset.keeps hf hs (hset.disjoint_linkBytesOf hY)) fun q hq => ?_
  refine (hheld.keeps hf hs hY hq (hdisj q hq)).mono fun a ha => ?_
  rw [Set.mem_Ico] at ha
  rw [mem_pageBytes]
  omega

theorem LogEntry.Rest.keeps (h : E.Rest m data j) (hset : Settled f E.off) (hf : f.Holds A m)
    (hs : LogStep A (linkBytesOf Y) f f' ts m m') (hY : ∀ q ∈ Y, IsPage q)
    (hheld : Held f {q | q ∈ E.pages.drop j}) (hdisj : ∀ q ∈ E.pages.drop j, q ∉ Y) :
    E.Rest m' data j := by
  refine h.congr (hset.keeps hf hs (hset.disjoint_linkBytesOf hY)) fun q hq => ?_
  refine (hheld.keeps hf hs hY hq (hdisj q hq)).mono fun a ha => ?_
  rw [Set.mem_Ico] at ha
  rw [mem_pageBytes]
  omega

theorem FreeList.keeps (h : FreeList m g freed) (hf : f.Holds A m)
    (hs : LogStep A (linkBytesOf Y) f f' ts m m') (hY : ∀ q ∈ Y, IsPage q)
    (hheld : Held f {q | q ∈ freed}) (hdisj : ∀ q ∈ freed, q ∉ Y) : FreeList m' g freed := by
  refine h.congr fun q hq => (hheld.keeps hf hs hY hq (hdisj q hq)).mono fun a ha => ?_
  rw [Set.mem_Ico] at ha
  rw [mem_pageBytes]
  omega

end Keeps

/-! ## The rounds -/

section Rounds

variable {A : PageAllocator} {all : List Nat} {f₀ f : Frontier} {s₀ s : State} {g : GcVars}
  {ns : List LogEntry} {evs : List Event} {freed rest others : List Nat} {E : LogEntry} {p : GcPos}
  {inode e : Nat}

namespace Collecting

theorem logStep (h : Collecting A all f₀ f s₀ s g ns evs freed rest) :
    ∃ ts, LogStep A (linkBytesOf {q | q ∈ all}) f₀ f ts s₀.mem s.mem :=
  h.appends.logStep h.holds₀ h.held₀

theorem holds (h : Collecting A all f₀ f s₀ s g ns evs freed rest) : f.Holds A s.mem := by
  obtain ⟨ts, hs⟩ := h.logStep
  exact hs.holds

theorem held (h : Collecting A all f₀ f s₀ s g ns evs freed rest) : Held f {q | q ∈ all} := by
  obtain ⟨ts, hs⟩ := h.logStep
  exact h.held₀.step hs

theorem nodup' (h : Collecting A all f₀ f s₀ s g ns evs freed rest) :
    (pagesOf ns ++ (freed ++ rest)).Nodup := h.perm.nodup_iff.2 h.nodup

theorem mem_new (h : Collecting A all f₀ f s₀ s g ns evs freed rest) {N : LogEntry} {q : Nat}
    (hN : N ∈ ns) (hq : q ∈ N.pages) : q ∈ all ∧ q ∉ freed ∧ q ∉ rest := by
  have hmem : q ∈ pagesOf ns := mem_pagesOf.2 ⟨N, hN, hq⟩
  have hdisj := (List.nodup_append'.1 h.nodup').2.2
  exact ⟨h.perm.subset (List.mem_append_left _ hmem),
    fun hc => hdisj hmem (List.mem_append_left _ hc),
    fun hc => hdisj hmem (List.mem_append_right _ hc)⟩

theorem mem_freed (h : Collecting A all f₀ f s₀ s g ns evs freed rest) {q : Nat} (hq : q ∈ freed) :
    q ∈ all ∧ q ∉ rest := by
  have hsplit := (List.nodup_append'.1 h.nodup').2.1
  exact ⟨h.perm.subset (List.mem_append_right _ (List.mem_append_left _ hq)),
    fun hc => (List.nodup_append'.1 hsplit).2.2 hq hc⟩

theorem mem_rest (h : Collecting A all f₀ f s₀ s g ns evs freed rest) {q : Nat} (hq : q ∈ rest) :
    q ∈ all := h.perm.subset (List.mem_append_right _ (List.mem_append_right _ hq))

/-- Setting links of pages in use takes nothing off the supply. -/
theorem lasts_link (h : Collecting A all f₀ f s₀ s g ns evs freed rest) {Y : Set Nat} {m : Memory}
    {n : Nat} (hY : Held f Y) (hm : ChangesOnly (linkBytesOf Y) s.mem m) (hlast : A.Lasts n s.mem) :
    A.Lasts n m := by
  refine hlast.congr h.holds.rep (eqOn_of_inUse (A.rep_page h.holds.rep) hm ?_)
  rintro a ⟨q, hq, ha⟩
  obtain ⟨hpage, hfree, -⟩ := hY q hq
  refine ⟨q, hpage, hfree, ?_⟩
  rw [mem_linkBytes] at ha
  rw [mem_pageBytes]
  omega

/-- If there is no page for another entry, there were none for all of them to begin with. -/
theorem starved (h : Collecting A all f₀ f s₀ s g ns evs freed rest)
    (hfull : f.page + 4048 < f.tail) (hnone : ¬ A.Lasts 1 s.mem) :
    ¬ A.Lasts (entryPages (ns.length + 1)) s₀.mem := by
  refine fun hlast => hnone (h.lasts 1 (hlast.mono ?_))
  rw [entryPages]
  rcases h.appends.opened h.holds₀ h.held₀ with hzero | ⟨k, hk, -, hk85, hsum⟩ <;> omega

/-- The first run of what is left of an entry is cut off: the pages it has and what stays. -/
theorem cutRun (h : Collecting A all f₀ f s₀ s g ns evs freed (E.pages.drop p.j ++ others))
    (hE : E.Rest s.mem p.data p.j) (hset : Settled f E.off) (hj : p.j < E.pages.length) {v : Bool}
    (hbit : E.invalid p.j = v) (he : e = runEnd E.invalid v (E.pages.length - p.j) p.j) :
    p.j < e ∧ e ≤ E.pages.length ∧ ∃ q m₁, (∃ xs, E.cut p.j e = xs ++ [q]) ∧
      (runFrom s.mem E.off p.data p.j v).j = e ∧
      (runFrom s.mem E.off p.data p.j v).count = (E.cut p.j e).length ∧
      (runFrom s.mem E.off p.data p.j v).prevNode = q + 4096 ∧
      ListNode.nextOffset.set s.mem (q + 4096) offsetNull = m₁ ∧
      PageChain m₁ p.data (E.cut p.j e) ∧
      E.Rest m₁ (ListNode.nextOffset.get s.mem (q + 4096)) e ∧
      ChangesOnly (linkBytesOf {q | q ∈ E.cut p.j e}) s.mem m₁ ∧
      Held f {q | q ∈ E.cut p.j e} := by
  obtain ⟨hlt, hle, q, hq, hrj, hcount, hprev⟩ := runFrom_spec hE hj hbit he
  have hqpage := hE.page q (List.mem_of_getElem? hq)
  have hqcut : q ∈ E.cut p.j e := LogEntry.mem_cut.2 ⟨e - 1, by omega, by omega, hq⟩
  obtain ⟨hchain, hrest⟩ := hE.cut hlt hle hq (hset.disjoint_linkBytes hqpage)
  have hcut : Held f {q | q ∈ E.cut p.j e} := h.held.mono fun r hr => h.mem_rest
    (List.mem_append_left _ (LogEntry.cut_append_drop (E := E) hlt.le ▸ List.mem_append_left _ hr))
  refine ⟨hlt, hle, q, _, ?_, hrj, ?_, hprev, rfl, hchain,
    hqpage.pageLink_eq s.mem ▸ hrest, ?_, hcut⟩
  · refine ⟨(E.cut p.j e).dropLast, (List.dropLast_append_getLast? q ?_).symm⟩
    rw [List.getLast?_eq_getElem?, LogEntry.length_cut hle, LogEntry.cut, List.getElem?_drop,
      List.getElem?_take, show p.j + (e - p.j - 1) = e - 1 by omega, if_pos (by omega), hq]
    exact rfl
  · rw [hcount, LogEntry.length_cut hle]
  · exact (changesOnly_setLink s.mem q _).mono fun a ha => ⟨q, hqcut, ha⟩

/-- A valid run becomes the chain of a new entry. -/
theorem keepRun (h : Collecting A all f₀ f s₀ s g ns evs freed (E.pages.drop p.j ++ others))
    (hE : E.Rest s.mem p.data p.j) (hset : Settled f E.off) (hj : p.j < E.pages.length)
    (hbit : E.invalid p.j = false)
    (he : e = runEnd E.invalid false (E.pages.length - p.j) p.j) (inode : Nat) :
    (Atfs.keepRun A inode E.off p g s = .error .noPages ∧ p.j < e ∧
      ¬ A.Lasts (entryPages (ns.length + 1)) s₀.mem) ∨
    ∃ data g' s' f' evs' N, Atfs.keepRun A inode E.off p g s = .ok (⟨data, e⟩, g', s') ∧ p.j < e ∧
      E.Moved p.j e N ∧
      Collecting A all f₀ f' s₀ s' g' (ns ++ [N]) (evs' ++ evs) freed (E.pages.drop e ++ others) ∧
      E.Rest s'.mem data e ∧
      ∃ ts, LogStep A (linkBytesOf {q | q ∈ E.cut p.j e}) f f' ts s.mem s'.mem := by
  obtain ⟨hlt, hle, q, m₁, -, hrj, hcount, hprev, hm₁, hchain, hrest, hlinks, hcut⟩ :=
    h.cutRun hE hset hj hbit he
  have hsplit := LogEntry.cut_append_drop (E := E) hlt.le
  have hmem {r : Nat} (hr : r ∈ E.cut p.j e) : r ∈ E.pages.drop p.j ++ others :=
    List.mem_append_left _ (hsplit ▸ List.mem_append_left _ hr)
  have hpage : ∀ r ∈ {q | q ∈ E.cut p.j e}, IsPage r := fun r hr => (hcut r hr).1
  have hstep₁ := hcut.logStep h.holds hlinks
  cases hget : getLogEntry A { s with mem := m₁ } g.logTail with
  | error x =>
    obtain ⟨rfl, hfull, hnone⟩ := getLogEntry_starved (s := { s with mem := m₁ }) hstep₁.holds
      (h.tail ▸ hget)
    refine .inl ⟨?_, hlt, h.starved hfull fun hlast => hnone (h.lasts_link hcut hlinks hlast)⟩
    rw [Atfs.keepRun]
    simp only [hprev, hm₁]
    rw [hget]
    rfl
  | ok r =>
    obtain ⟨off, tail', s₂⟩ := r
    have hlen : (E.cut p.j e).length = e - p.j := LogEntry.length_cut hle
    have hle64 := hE.le
    have hwords : E.Words s₂.mem := by
      obtain ⟨f₂, -, -, -, -, hs₂, -⟩ := getLogEntry_step (s := { s with mem := m₁ }) hstep₁.holds ∅
        (h.tail ▸ hget)
      exact hrest.words.congr (hset.keeps hstep₁.holds hs₂ (Set.empty_disjoint _))
    have hsize : AtfsInode.iSize.get s₂.mem inode < 2 ^ 64 := Field.get_lt _ _ _
    have hstart : runStartWriteOff s₂.mem E.off p.j < 2 ^ 64 := addU64_lt _ _
    have hstop : runEndWriteOff s₂.mem E.off e < 2 ^ 64 := by
      rw [runEndWriteOff]
      split_ifs
      · exact Field.get_lt _ _ _
      · exact addU64_lt _ _
    obtain ⟨f', evs', htail, hrec, hindex, hentry, hlasts⟩ := entryStep_of_getLogEntry
      (s := { s with mem := m₁ }) hstep₁.holds (h.tail ▸ hget) hchain (by omega) (by omega)
      (fun r hr => (hcut r hr).2) hsize hstart hstop
    have hstep := hstep₁.trans (hentry.step.mono (Set.empty_subset _))
      fun T hT hT' => hcut.disjoint_link hT hT'
    refine .inr ⟨ListNode.nextOffset.get s.mem (q + 4096), { g with logTail := tail' },
      { s₂ with mem := initLogEntry s₂.mem off p.data (AtfsInode.iSize.get s₂.mem inode)
                  (E.cut p.j e).length (runStartWriteOff s₂.mem E.off p.j)
                  (runEndWriteOff s₂.mem E.off e) }, f', evs', _, ?_, hlt, ⟨rfl, ?_, ?_, rfl, rfl⟩,
      ⟨h.holds₀, h.held₀, h.nodup, ?_, (h.appends.link hlinks ?_ ?_).entry hentry,
        h.recorded.trans hrec, hindex.trans h.index, htail.symm, fun N hN => ?_, fun N hN => ?_, ?_,
        fun n hlast => ?_⟩, ?_, _,
      hstep⟩
    · rw [Atfs.keepRun]
      simp only [hprev, hm₁, hrj, hcount]
      rw [hget]
      rfl
    · rw [← hwords.startWriteOff]
      rfl
    · rw [← hwords.startWriteOff, ← hwords.endWriteOff, ← hwords.numPages]
      rfl
    · rw [pagesOf_append, pagesOf_cons, pagesOf_nil, List.append_nil]
      refine List.Perm.trans ?_ h.perm
      rw [← hsplit, List.append_assoc, List.append_assoc]
      exact (List.perm_append_comm_assoc _ _ _).append_left _
    · exact fun r hr => h.mem_rest (hmem hr)
    · intro r hr hc
      obtain ⟨N, hN, hc⟩ := mem_pagesOf.1 hc
      exact (h.mem_new hN hc).2.2 (hmem hr)
    · rcases List.mem_append.1 hN with hN | hN
      · refine (h.stored N hN).keeps (h.settled N hN) h.holds hstep hpage
          (h.held.mono fun r hr => (h.mem_new hN hr).1) fun r hr hc =>
            (h.mem_new hN hr).2.2 (hmem hc)
      · obtain rfl := List.mem_singleton.1 hN
        exact hentry.stored
    · rcases List.mem_append.1 hN with hN | hN
      · exact (h.settled N hN).step hstep
      · obtain rfl := List.mem_singleton.1 hN
        exact hentry.settled hstep₁.holds
    · have hfree := h.freeList.keeps h.holds hstep hpage
        (h.held.mono fun r hr => (h.mem_freed hr).1)
        fun r hr hc => (h.mem_freed hr).2 (hmem hc)
      exact ⟨hfree.nums, hfree.empty, hfree.chain⟩
    · rw [pagesOpened_append, Nat.add_comm (pagesOpened evs), ← Nat.add_assoc] at hlast
      exact hlasts n (h.lasts_link hcut hlinks (h.lasts _ hlast))
    · refine hrest.keeps hset hstep₁.holds (Y := ∅) (hentry.step.mono (Set.empty_subset _))
        (fun r hr => absurd hr (Set.notMem_empty r)) (h.held.mono fun r hr => h.mem_rest ?_)
        fun r _ => Set.notMem_empty r
      exact List.mem_append_left _ (hsplit ▸ List.mem_append_right _ hr)

/-- An invalid run is spliced into the chain of pages to be freed. -/
theorem freeRun (h : Collecting A all f₀ f s₀ s g ns evs freed (E.pages.drop p.j ++ others))
    (hE : E.Rest s.mem p.data p.j) (hset : Settled f E.off) (hj : p.j < E.pages.length)
    (hbit : E.invalid p.j = true)
    (he : e = runEnd E.invalid true (E.pages.length - p.j) p.j) :
    ∃ data g' s' freed', Atfs.freeRun E.off p g s = (⟨data, e⟩, g', s') ∧ p.j < e ∧
      freed'.Perm (freed ++ E.cut p.j e) ∧
      Collecting A all f₀ f s₀ s' g' ns evs freed' (E.pages.drop e ++ others) ∧
      E.Rest s'.mem data e ∧
      ∃ ts, LogStep A (linkBytesOf {q | q ∈ E.cut p.j e ++ freed}) f f ts s.mem s'.mem := by
  obtain ⟨hlt, hle, q, m₁, ⟨xs, hxs⟩, hrj, hcount, hprev, hm₁, hchain, hrest, hlinks, hcut⟩ :=
    h.cutRun hE hset hj hbit he
  have hsplit := LogEntry.cut_append_drop (E := E) hlt.le
  have hmem {r : Nat} (hr : r ∈ E.cut p.j e) : r ∈ E.pages.drop p.j ++ others :=
    List.mem_append_left _ (hsplit ▸ List.mem_append_left _ hr)
  have hheld : Held f {q | q ∈ E.cut p.j e ++ freed} := by
    intro r hr
    rcases List.mem_append.1 hr with hr | hr
    · exact hcut r hr
    · exact h.held r (h.mem_freed hr).1
  have hdata : IsPage p.data := hchain.page _ (hchain.head_mem (by rw [hxs]; simp))
  -- whatever is set next are links of the run and of the chain
  have hwhole {m' : Memory} {g' : GcVars} {freed' : List Nat}
      (hm' : ChangesOnly (linkBytesOf {q | q ∈ E.cut p.j e ++ freed}) m₁ m')
      (hfree : FreeList m' g' freed') (hperm : freed'.Perm (freed ++ E.cut p.j e))
      (htail : g'.logTail = g.logTail) :
      Collecting A all f₀ f s₀ { s with mem := m' } g' ns evs freed' (E.pages.drop e ++ others) ∧
        E.Rest m' (ListNode.nextOffset.get s.mem (q + 4096)) e ∧
        ∃ ts, LogStep A (linkBytesOf {q | q ∈ E.cut p.j e ++ freed}) f f ts s.mem m' := by
    have hlinks' : ChangesOnly (linkBytesOf {q | q ∈ E.cut p.j e ++ freed}) s.mem m' :=
      (hlinks.mono (linkBytesOf_mono fun r hr => List.mem_append_left _ hr)).trans hm'
    have hstep := hheld.logStep h.holds hlinks'
    have hstep₁ := hcut.logStep h.holds hlinks
    refine ⟨⟨h.holds₀, h.held₀, h.nodup, ?_,
      h.appends.link hlinks' (fun r hr => ?_) fun r hr hc => ?_, h.recorded, h.index,
      htail.trans h.tail, fun N hN => ?_, h.settled, hfree,
      fun n hlast => h.lasts_link hheld hlinks' (h.lasts n hlast)⟩, ?_, _, hstep⟩
    · refine List.Perm.trans (List.Perm.append_left _ ?_) h.perm
      rw [← hsplit, List.append_assoc, ← List.append_assoc freed]
      exact hperm.append_right _
    · exact (List.mem_append.1 hr).elim (fun hr => h.mem_rest (hmem hr)) fun hr =>
        (h.mem_freed hr).1
    · obtain ⟨N, hN, hc⟩ := mem_pagesOf.1 hc
      exact (List.mem_append.1 hr).elim (fun hr => (h.mem_new hN hc).2.2 (hmem hr))
        (h.mem_new hN hc).2.1
    · refine (h.stored N hN).keeps (h.settled N hN) h.holds hstep (fun r hr => (hheld r hr).1)
        (h.held.mono fun r hr => (h.mem_new hN hr).1) fun r hr hc => ?_
      exact (List.mem_append.1 hc).elim (fun hc => (h.mem_new hN hr).2.2 (hmem hc))
        (h.mem_new hN hr).2.1
    · refine hrest.keeps hset hstep₁.holds (hheld.logStep hstep₁.holds hm')
        (fun r hr => (hheld r hr).1)
        (h.held.mono fun r hr => h.mem_rest (List.mem_append_left _
          (hsplit ▸ List.mem_append_right _ hr))) fun r hr hc => ?_
      rcases List.mem_append.1 hc with hc | hc
      · have hnodup := (List.drop_sublist p.j _).nodup hE.nodup
        rw [← hsplit] at hnodup
        exact (List.nodup_append'.1 hnodup).2.2 hc hr
      · exact (h.mem_freed hc).2 (List.mem_append_left _ (hsplit ▸ List.mem_append_right _ hr))
  rw [Atfs.freeRun]
  simp only [hprev, hm₁, hrj, hcount, hdata.getNvmPageNodeAddr_eq]
  have hnums := h.freeList.nums
  cases hhead : g.freeHead with
  | none =>
    obtain rfl := h.freeList.empty hhead
    refine ⟨_, _, _, E.cut p.j e, rfl, hlt, List.Perm.refl _, hwhole (ChangesOnly.refl _ _)
      ⟨?_, fun hc => by simp at hc, fun k hk => ?_⟩ (List.Perm.refl _) rfl⟩
    · simp only [hnums, List.length_nil, Nat.zero_add]
    · obtain rfl := Option.some.inj hk
      exact ⟨by rw [hxs]; simp, p.data, rfl, hchain⟩
  | some k =>
    obtain ⟨hne, r, rfl, hfreed⟩ := h.freeList.chain k hhead
    obtain ⟨r', t, rfl⟩ := List.exists_cons_of_ne_nil hne
    obtain rfl := hfreed.chain.head_eq
    have hr : IsPage r := hfreed.page r List.mem_cons_self
    have hdisj : (E.cut p.j e).Disjoint (r :: t) := fun x hx hx' => (h.mem_freed hx').2 (hmem hx)
    -- the cut leaves the nodes of the chain
    have hfreed₁ : PageChain m₁ r (r :: t) := by
      refine hfreed.congr fun x hx a ha => hlinks a ?_
      rintro ⟨y, hy, hc⟩
      have := (hfreed.page x hx).apart (hcut y hy).1 (by rintro rfl; exact hdisj hy hx)
      rw [Set.mem_Ico] at ha
      rw [mem_linkBytes] at hc
      omega
    have hq : IsPage q := hchain.page q (by rw [hxs]; simp)
    have hoff : ListNode.offset.get (ListNode.nextOffset.set m₁ (q + 4096) (pageLink m₁ r))
        (p.data + 4096) = p.data := by
      refine Eq.trans ?_ (hchain.offset p.data (hchain.head_mem (by rw [hxs]; simp)))
      by_cases hpq : p.data = q
      · rw [hpq]
        exact Field.get_set_of_disjoint _ _ _ (by simp)
      · have := hdata.apart hq hpq
        exact Field.get_set_of_apart _ _ _ (by omega)
    have hsplice := (hxs ▸ hchain).splice hfreed₁ (hxs ▸ hdisj)
    rw [← hxs] at hsplice
    simp only [← hr.pageLink_eq, hoff]
    have hperm : (r :: (E.cut p.j e ++ t)).Perm (r :: t ++ E.cut p.j e) := by
      rw [List.cons_append]
      exact List.perm_append_comm.cons r
    have hchange : ChangesOnly (linkBytesOf {q | q ∈ E.cut p.j e ++ r :: t}) m₁
        (spliceChain m₁ r p.data q) := by
      refine (changesOnly_spliceChain m₁ r p.data q).mono fun a ha => ?_
      rcases ha with ha | ha
      · exact ⟨q, List.mem_append_left _ (by rw [hxs]; simp), ha⟩
      · exact ⟨r, List.mem_append_right _ List.mem_cons_self, ha⟩
    refine ⟨_, _, _, r :: (E.cut p.j e ++ t), rfl, hlt, hperm, hwhole hchange
      ⟨?_, fun hc => ?_, fun k hk => ?_⟩ hperm rfl⟩
    · rw [hperm.length_eq, List.length_append]
      simp only [hnums]
    · cases hc
    · obtain rfl := Option.some.inj hk
      exact ⟨List.cons_ne_nil _ _, r, rfl, hsplice⟩

/-- One round: a run of valid pages, if there is one, and a run of invalid pages behind it. -/
theorem gcRound {e' : Nat}
    (h : Collecting A all f₀ f s₀ s g ns evs freed (E.pages.drop p.j ++ others))
    (hE : E.Rest s.mem p.data p.j) (hset : Settled f E.off) (hj : p.j < E.pages.length)
    (he : e = runEnd E.invalid false (E.pages.length - p.j) p.j)
    (he' : e' = runEnd E.invalid true (E.pages.length - e) e) (inode : Nat) :
    (Atfs.gcRound A inode E.off p g s = .error .noPages ∧ p.j < e ∧
      ¬ A.Lasts (entryPages (ns.length + 1)) s₀.mem) ∨
    ∃ data g' s' f' evs' ns' freed', Atfs.gcRound A inode E.off p g s = .ok (⟨data, e'⟩, g', s') ∧
      p.j < e' ∧ List.Forall₂ (fun r N => E.Moved r.1 r.2 N)
      (if p.j < e then [(p.j, e)] else []) ns' ∧
      freed'.Perm (freed ++ E.cut e e') ∧
      Collecting A all f₀ f' s₀ s' g' (ns ++ ns') (evs' ++ evs) freed' (E.pages.drop e' ++ others) ∧
      E.Rest s'.mem data e' ∧
      ∃ ts, LogStep A (linkBytesOf {q | q ∈ E.pages.drop p.j ++ freed}) f f' ts s.mem s'.mem := by
  have hle64 := hE.le
  have hbits := entryInvalidPage_eq hE.words (show p.j < 64 by omega)
  have hrunEnd := runEnd_le (b := E.invalid) (v := false) (r := E.pages.length - p.j) (j := p.j)
  have hcutDrop {k i : Nat} (hk : p.j ≤ k) : {q | q ∈ E.cut k i} ⊆ {q | q ∈ E.pages.drop p.j} := by
    intro q hq
    obtain ⟨l, hl, -, hq⟩ := LogEntry.mem_cut.1 hq
    refine List.mem_iff_getElem?.2 ⟨l - p.j, ?_⟩
    rwa [List.getElem?_drop, Nat.add_sub_cancel' (hk.trans hl)]
  have hwiden {X : Set Nat} {f₁ f₂ : Frontier} {ts : List Nat} {m₁ m₂ : Memory}
      (hs : LogStep A (linkBytesOf X) f₁ f₂ ts m₁ m₂)
      (hX : ∀ q ∈ X, q ∈ E.pages.drop p.j ∨ q ∈ freed) :
      LogStep A (linkBytesOf {q | q ∈ E.pages.drop p.j ++ freed}) f₁ f₂ ts m₁ m₂ :=
    hs.mono (linkBytesOf_mono fun q hq => List.mem_append.2 (hX q hq))
  have hheld : Held f {q | q ∈ E.pages.drop p.j ++ freed} := by
    intro q hq
    rcases List.mem_append.1 hq with hq | hq
    · exact h.held q (h.mem_rest (List.mem_append_left _ hq))
    · exact h.held q (h.mem_freed hq).1
  rw [Atfs.gcRound]
  by_cases hbit : E.invalid p.j = false
  · rcases h.keepRun hE hset hj hbit he inode with ⟨hfail, hnone⟩ | ⟨data, g₁, s₁, f₁,
      evs₁, N, hkeep, hlt, hmoved, h₁, hE₁, ts, hstep⟩
    · refine .inl ⟨?_, hnone⟩
      rw [if_pos (hbits.trans hbit), hfail]
      rfl
    · rw [if_pos (hbits.trans hbit), if_pos hlt, hkeep]
      simp only [bind, Except.bind, hE₁.words.numPages]
      have hstep' := hwiden hstep fun q hq => .inl (hcutDrop le_rfl hq)
      have hset₁ := hset.step hstep
      rcases Nat.lt_or_ge e E.pages.length with hen | hen
      · -- the run of invalid pages behind the run of valid ones
        have hinv : E.invalid e = true := by
          have := runEnd_stop (b := E.invalid) (v := false) (r := E.pages.length - p.j) (j := p.j)
            (by omega)
          rw [← he] at this
          simpa using this
        obtain ⟨data₂, g₂, s₂, freed', hfree, hlt₂, hperm, h₂, hE₂, ts₂, hstep₂⟩ :=
          h₁.freeRun (p := ⟨data, e⟩) hE₁ hset₁ hen hinv he'
        rw [if_pos ⟨hen, (entryInvalidPage_eq hE₁.words (by omega)).trans hinv⟩, hfree]
        refine .inr ⟨data₂, g₂, s₂, f₁, evs₁, [N], freed', rfl, hlt.trans hlt₂,
          .cons hmoved .nil, hperm, h₂, hE₂, _, hstep'.trans (hwiden hstep₂ fun q hq => ?_)
          fun T hT hT' => hheld.disjoint_link hT hT'⟩
        exact (List.mem_append.1 hq).imp_left fun hq => hcutDrop hlt.le hq
      · obtain rfl : e' = e := by
          rw [he', show E.pages.length - e = 0 by omega]
          rfl
        rw [if_neg fun hc => absurd hc.1 (by omega)]
        have hnil : E.cut e' e' = [] := by
          rw [← List.length_eq_zero_iff, LogEntry.length_cut (by omega), Nat.sub_self]
        refine .inr ⟨data, g₁, s₁, f₁, evs₁, [N], freed, rfl, hlt, .cons hmoved .nil,
          ?_, h₁, hE₁, _, hstep'⟩
        rw [hnil, List.append_nil]
  · obtain rfl : e = p.j := he.trans (runEnd_of_ne hbit)
    rw [if_neg (by rw [hbits]; exact hbit), if_neg (lt_irrefl _)]
    simp only [Bool.not_eq_false] at hbit
    obtain ⟨data₂, g₂, s₂, freed', hfree, hlt₂, hperm, h₂, hE₂, ts₂, hstep₂⟩ :=
      h.freeRun hE hset hj hbit he'
    simp only [bind, Except.bind, hE.words.numPages]
    rw [if_pos ⟨hj, hbits.trans hbit⟩, hfree]
    refine .inr ⟨data₂, g₂, s₂, f, [], [], freed', rfl, hlt₂, .nil, hperm, ?_, hE₂, _,
      hwiden hstep₂ fun q hq => ?_⟩
    · rw [List.append_nil]
      exact h₂
    · exact (List.mem_append.1 hq).imp_left fun hq => hcutDrop le_rfl hq

/-- The loop over the pages of an entry moves every run of valid pages and frees all others. -/
theorem gcPages {fuel : Nat}
    (h : Collecting A all f₀ f s₀ s g ns evs freed (E.pages.drop p.j ++ others))
    (hE : E.Rest s.mem p.data p.j) (hset : Settled f E.off) (hj : p.j ≤ E.pages.length)
    (hleft : p.j = E.pages.length ∨ p.j = 0 ∨ E.invalid (p.j - 1) = true)
    (hfuel : E.pages.length - p.j < fuel) (inode : Nat) :
    (Atfs.gcPages A inode E.off fuel p g s = .error .noPages ∧
      ¬ A.Lasts (entryPages (ns.length + (E.validRuns p.j).length)) s₀.mem) ∨
    ∃ g' s' f' evs' ns' freed', Atfs.gcPages A inode E.off fuel p g s = .ok (g', s') ∧
      List.Forall₂ (fun r N => E.Moved r.1 r.2 N) (E.validRuns p.j) ns' ∧
      freed'.Perm (freed ++ E.invalidFrom p.j) ∧
      Collecting A all f₀ f' s₀ s' g' (ns ++ ns') (evs' ++ evs) freed' others ∧
      ∃ ts, LogStep A (linkBytesOf {q | q ∈ E.pages.drop p.j ++ freed}) f f' ts s.mem s'.mem := by
  induction fuel generalizing p g s f ns evs freed with
  | zero => omega
  | succ fuel ih =>
    rw [Atfs.gcPages]
    simp only [hE.words.numPages]
    rcases hj.eq_or_lt with hj | hj
    · refine .inr ⟨g, s, f, [], [], freed, if_neg (by omega), ?_, ?_, ?_, _, .refl h.holds _⟩
      · rw [LogEntry.validRuns, hj, clearRuns_self]
        exact .nil
      · rw [hj, LogEntry.invalidFrom_length, List.append_nil]
      · rwa [List.drop_of_length_le (by omega), List.nil_append, ← List.append_nil ns] at h
    · rw [if_pos hj]
      obtain ⟨e, he⟩ : ∃ e, e = runEnd E.invalid false (E.pages.length - p.j) p.j := ⟨_, rfl⟩
      obtain ⟨e', he'⟩ : ∃ e', e' = runEnd E.invalid true (E.pages.length - e) e := ⟨_, rfl⟩
      have hruns : E.validRuns p.j = (if p.j < e then [(p.j, e)] else []) ++ E.validRuns e' := by
        rw [LogEntry.validRuns, clearRuns_step hj.le (hleft.resolve_left hj.ne) he he']
        rfl
      rcases h.gcRound hE hset hj he he' inode with ⟨hfail, hlt, hnone⟩ | ⟨data, g₁, s₁,
        f₁, evs₁, ns₁, freed₁, hround, hlt, hmoved, hperm, h₁, hE₁, ts₁, hstep₁⟩
      · refine .inl ⟨?_, fun hlast => hnone (hlast.mono (entryPages_mono ?_))⟩
        · rw [hfail]
          rfl
        · rw [hruns, if_pos hlt, List.length_append, List.length_singleton]
          omega
      · have hle₁ : p.j ≤ e := he ▸ le_runEnd
        have hle₂ : e ≤ e' := he' ▸ le_runEnd
        have hend₁ := runEnd_le (b := E.invalid) (v := false) (r := E.pages.length - p.j) (j := p.j)
        have hend₂ := runEnd_le (b := E.invalid) (v := true) (r := E.pages.length - e) (j := e)
        have hleft₁ : e' = E.pages.length ∨ e' = 0 ∨ E.invalid (e' - 1) = true := by
          rcases hle₂.eq_or_lt with heq | hlt₂
          · -- no invalid page behind the run, so it ends with the entry
            refine .inl (by_contra fun hne => ?_)
            have hclear := runEnd_stop (b := E.invalid) (v := false) (r := E.pages.length - p.j)
              (j := p.j) (by omega)
            have hset' := runEnd_stop (b := E.invalid) (v := true)
              (r := E.pages.length - e) (j := e)
              (by omega)
            rw [← he] at hclear
            rw [← he', ← heq] at hset'
            exact (by grind : False)
          · exact .inr (.inr (runEnd_mark (show e ≤ e' - 1 by omega)
              (show e' - 1 < runEnd E.invalid true (E.pages.length - e) e by omega)))
        rcases ih (p := ⟨data, e'⟩) h₁ hE₁ (hset.step hstep₁) (by simp only; omega) hleft₁
          (by simp only; omega) with ⟨hfail, hnone⟩ | ⟨g₂, s₂, f₂, evs₂, ns₂, freed₂,
            hrest, hmoved₂,
          hperm₂, h₂, ts₂, hstep₂⟩
        · rw [List.length_append, ← hmoved.length_eq, Nat.add_assoc, ← List.length_append,
            ← hruns] at hnone
          refine .inl ⟨?_, hnone⟩
          rw [hround]
          exact hfail
        · refine .inr ⟨g₂, s₂, f₂, evs₂ ++ evs₁, ns₁ ++ ns₂, freed₂, ?_, ?_, ?_, ?_, ts₁ ++ ts₂, ?_⟩
          · rw [hround]
            exact hrest
          · rw [hruns]
            exact List.rel_append hmoved hmoved₂
          · rw [LogEntry.invalidFrom_step hle₁ hle₂ (by omega)
              (fun i hi hi' => runEnd_mark hi (he ▸ hi'))
              fun i hi hi' => runEnd_mark hi (he' ▸ hi'), ← List.append_assoc]
            exact hperm₂.trans (hperm.append_right _)
          · rwa [← List.append_assoc, List.append_assoc evs₂]
          · refine hstep₁.trans (hstep₂.mono (linkBytesOf_mono fun q hq => ?_)) fun T hT hT' =>
              Held.disjoint_link ?_ hT hT'
            · rcases List.mem_append.1 hq with hq | hq
              · refine List.mem_append_left _ ?_
                have hdrop : E.pages.drop e' = (E.pages.drop p.j).drop (e' - p.j) := by
                  rw [List.drop_drop, show p.j + (e' - p.j) = e' by omega]
                exact List.mem_of_mem_drop (hdrop ▸ hq)
              · rcases List.mem_append.1 (hperm.subset hq) with hq | hq
                · exact List.mem_append_right _ hq
                · refine List.mem_append_left _ ?_
                  obtain ⟨i, hi, -, hiq⟩ := LogEntry.mem_cut.1 hq
                  refine List.mem_iff_getElem?.2 ⟨i - p.j, ?_⟩
                  rwa [List.getElem?_drop, show p.j + (i - p.j) = i by omega]
            · intro q hq
              rcases List.mem_append.1 hq with hq | hq
              · exact h.held q (h.mem_rest (List.mem_append_left _ hq))
              · exact h.held q (h.mem_freed hq).1

end Collecting

end Rounds

end Atfs
