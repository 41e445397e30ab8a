import Atfs.Allocator.Supply
import Atfs.Log.Basic

/-!
# Advancing a log

A `Frontier` says which pages the allocator holds and where a log ends. A `LogStep`
leads from one frontier to a later one: it takes pages from the allocator, appends
entries, and writes nothing else but those pages, the end of the log and the bytes `D`
that its user names. Both `nvmio_write` and the collector are sequences of such steps.
-/

namespace Atfs

open ByteMemory LinkedChain

/-! ## Slots -/

/-- Where the entry behind `tail` stands. -/
def nextSlot (m : Memory) (tail : Nat) : Nat :=
  if isLastEntry tail then nextLogPage m tail else tail

/-- The tail behind the entry that stands behind `tail`. -/
def slotEnd (m : Memory) (tail : Nat) : Nat := nextSlot m tail + sizeofFileLogEntry

theorem slotEnd_eq (m : Memory) (tail : Nat) : slotEnd m tail = nextSlot m tail + 48 := rfl

section Slots

variable {m m' : Memory} {T t : Nat}

theorem nextSlot_same (hT : IsPage T) (h : T ≤ t) (h' : t ≤ T + 4048) : nextSlot m t = t := by
  have hmem : t ∈ pageBytes T := by rw [mem_pageBytes]; omega
  rw [nextSlot, if_neg (by rw [hT.isLastEntry_iff hmem]; omega)]

theorem nextSlot_rollover (hT : IsPage T) (h : T + 4048 < t) (h' : t ≤ T + 4096) :
    nextSlot m t = pageLink m T := by
  have hmem : t ∈ pageBytes T := by rw [mem_pageBytes]; omega
  rw [nextSlot, if_pos ((hT.isLastEntry_iff hmem).2 h), hT.nextLogPage_eq hmem]

/-- A slot only depends on the link of the page it rolls over from. -/
theorem nextSlot_congr (hT : IsPage T) (h : T ≤ t ∧ t ≤ T + 4096)
    (hl : T + 4048 < t → pageLink m' T = pageLink m T) : nextSlot m' t = nextSlot m t := by
  rcases Nat.lt_or_ge (T + 4048) t with hr | hs
  · rw [nextSlot_rollover hT hr h.2, nextSlot_rollover hT hr h.2, hl hr]
  · rw [nextSlot_same hT h.1 hs, nextSlot_same hT h.1 hs]

end Slots

/-! ## Frontiers -/

/-- The pages the allocator holds, the last page of a log and its tail. -/
structure Frontier where
  free : Set Nat
  page : Nat
  tail : Nat

structure Frontier.Holds (A : PageAllocator) (f : Frontier) (m : Memory) : Prop where
  rep : A.Rep m f.free
  isPage : IsPage f.page
  notFree : f.page ∉ f.free
  le_tail : f.page ≤ f.tail
  tail_le : f.tail ≤ f.page + 4096

/-- The end of a log: the slots from the tail on, and the link and counters of the node. -/
def tailBytes (T tail : Nat) : Set Nat :=
  Set.Ico tail (T + 4104) ∪ Set.Ico (T + 4112) (T + 4128)

@[simp] theorem mem_tailBytes {T tail a : Nat} : a ∈ tailBytes T tail ↔
    tail ≤ a ∧ a < T + 4104 ∨ T + 4112 ≤ a ∧ a < T + 4128 := Iff.rfl

/-- What a log may write between two frontiers. -/
def footprint (f f' : Frontier) : Set Nat :=
  allocatorBytes f.free ∪ bytesOf (f.free \ f'.free) ∪ tailBytes f.page f.tail

/-- From `m` to `m'` the log has advanced from `f` to `f'`, passing the tails `ts`. -/
structure LogStep (A : PageAllocator) (D : Set Nat) (f f' : Frontier) (ts : List Nat)
    (m m' : Memory) : Prop where
  holds : f'.Holds A m'
  sub : f'.free ⊆ f.free
  moved : f'.page = f.page ∧ f.tail ≤ f'.tail ∨ f'.page ∈ f.free
  path : Segment (slotEnd m') f.tail ts f'.tail
  passed : ∀ t ∈ ts, ∃ T, IsPage T ∧ (T = f.page ∧ f.tail ≤ t ∨ T ∈ f.free) ∧ T ≤ t ∧
    t ≤ T + 4096 ∧ T ∉ f'.free ∧ (T = f'.page → t < f'.tail) ∧ (T + 4048 < t → T ≠ f'.page)
  frame : ChangesOnly (footprint f f' ∪ D) m m'

/-! ## What a step keeps -/

section Keeps

variable {A : PageAllocator} {D : Set Nat} {f f' f'' : Frontier} {ts ts' : List Nat}
  {m m' m'' : Memory} {p a : Nat}

/-- A page that is neither free nor the last of the log is not touched. -/
theorem LogStep.keeps (h : LogStep A D f f' ts m m') (hf : f.Holds A m) (hp : IsPage p)
    (hpF : p ∉ f.free) (hpT : p ≠ f.page) (ha : a ∈ pageBytes p) (haD : a ∉ D) : m' a = m a := by
  refine h.frame a ?_
  rintro (((hW | hW) | hW) | hW)
  · exact not_mem_allocatorBytes (A.rep_page hf.rep) hp hpF ha hW
  · exact not_mem_bytesOf (fun q hq => A.rep_page hf.rep q hq.1) hp (fun hc => hpF hc.1) ha hW
  · have := hp.apart hf.isPage hpT
    have := hf.le_tail
    simp only [mem_pageBytes, mem_tailBytes] at *
    omega
  · exact haD hW

/-- Nor are the entries already in the last page, nor what its node knows of itself. -/
theorem LogStep.keeps_tail (h : LogStep A D f f' ts m m') (hf : f.Holds A m)
    (ha : f.page ≤ a ∧ a < f.tail ∨ f.page + 4104 ≤ a ∧ a < f.page + 4112 ∨
      f.page + 4128 ≤ a ∧ a < f.page + 4136) (haD : a ∉ D) : m' a = m a := by
  have hmem : a ∈ pageBytes f.page := by
    have := hf.tail_le
    rw [mem_pageBytes]
    omega
  refine h.frame a ?_
  rintro (((hW | hW) | hW) | hW)
  · exact not_mem_allocatorBytes (A.rep_page hf.rep) hf.isPage hf.notFree hmem hW
  · exact not_mem_bytesOf (fun q hq => A.rep_page hf.rep q hq.1) hf.isPage
      (fun hc => hf.notFree hc.1) hmem hW
  · have := hf.tail_le
    simp only [mem_tailBytes] at hW
    omega
  · exact haD hW

/-- The bodies of the pages still free are not touched, only their links. -/
theorem LogStep.keeps_free (h : LogStep A D f f' ts m m') (hf : f.Holds A m) (hp : p ∈ f'.free)
    (ha : a ∈ pageBytes p) (hlink : a ∉ linkBytes p) (haD : a ∉ D) : m' a = m a := by
  have hpF := h.sub hp
  have hpage := A.rep_page hf.rep p hpF
  refine h.frame a ?_
  rintro ((((hW | ⟨q, hq, hW⟩) | hW) | hW) | hW)
  · have := hpage.bounds
    simp only [mem_pageBytes, mem_metadata] at *
    omega
  · by_cases hpq : p = q
    · subst hpq
      exact hlink hW
    · have := hpage.apart (A.rep_page hf.rep q hq) hpq
      simp only [mem_pageBytes, mem_linkBytes] at *
      omega
  · exact not_mem_bytesOf (fun q hq => A.rep_page hf.rep q hq.1) hpage (fun hc => hc.2 hp) ha hW
  · have hne : p ≠ f.page := by
      rintro rfl
      exact hf.notFree hpF
    have := hpage.apart hf.isPage hne
    have := hf.le_tail
    simp only [mem_pageBytes, mem_tailBytes] at *
    omega
  · exact haD hW

protected theorem LogStep.refl (hf : f.Holds A m) (D : Set Nat) : LogStep A D f f [] m m where
  holds := hf
  sub := le_rfl
  moved := .inl ⟨rfl, le_rfl⟩
  path := rfl
  passed := by simp
  frame := ChangesOnly.refl _ _

theorem footprint_trans (hsub : f'.free ⊆ f.free) (hsub' : f''.free ⊆ f'.free)
    (moved : f'.page = f.page ∧ f.tail ≤ f'.tail ∨ f'.page ∈ f.free)
    (notFree : f'.page ∉ f'.free) (le : f'.page ≤ f'.tail) :
    footprint f f' ∪ footprint f' f'' ⊆ footprint f f'' := by
  have hlost : f.free \ f'.free ⊆ f.free \ f''.free := fun q hq => ⟨hq.1, fun hc => hq.2 (hsub' hc)⟩
  rintro a (((ha | ⟨q, hq, ha⟩) | ha) | ((ha | ⟨q, hq, ha⟩) | ha))
  · exact .inl (.inl ha)
  · exact .inl (.inr ⟨q, hlost hq, ha⟩)
  · exact .inr ha
  · exact .inl (.inl (allocatorBytes_mono hsub ha))
  · exact .inl (.inr ⟨q, ⟨hsub hq.1, hq.2⟩, ha⟩)
  · rcases moved with ⟨hp, ht⟩ | hp
    · refine .inr ?_
      rw [hp] at ha
      simp only [mem_tailBytes] at *
      omega
    · refine .inl (.inr ⟨f'.page, ⟨hp, fun hc => notFree (hsub' hc)⟩, ?_⟩)
      simp only [mem_tailBytes, mem_pageBytes] at *
      omega

/-- Steps compose, as long as `D` stays clear of the log and the free pages. -/
theorem LogStep.trans (h : LogStep A D f f' ts m m') (h' : LogStep A D f' f'' ts' m' m'')
    (hD : ∀ T, IsPage T → (T = f.page ∨ T ∈ f.free) → Disjoint D (linkBytes T)) :
    LogStep A D f f'' (ts ++ ts') m m'' where
  holds := h'.holds
  sub := h'.sub.trans h.sub
  moved := by
    rcases h'.moved with ⟨hp, ht⟩ | hp
    · rcases h.moved with ⟨hp', ht'⟩ | hp'
      · exact .inl ⟨hp.trans hp', ht'.trans ht⟩
      · exact .inr (hp ▸ hp')
    · exact .inr (h.sub hp)
  path := by
    refine Segment.append (h.path.congr fun t ht => ?_) h'.path
    obtain ⟨T, hT, horig, hle, hle', hfree, -, hroll⟩ := h.passed t ht
    rw [slotEnd, slotEnd, nextSlot_congr hT ⟨hle, hle'⟩ fun hr => ?_]
    refine (hT.pageLink_congr fun a ha => ?_).symm
    refine h'.keeps h.holds hT hfree (hroll hr) (a := a) ?_ ?_
    · rw [Set.mem_Ico] at ha
      rw [mem_pageBytes]
      omega
    · refine fun haD => Set.disjoint_left.1 (hD T hT ?_) haD ha
      exact horig.imp And.left id
  passed := by
    intro t ht
    rcases List.mem_append.1 ht with ht | ht
    · obtain ⟨T, hT, horig, hle, hle', hfree, hlt, hroll⟩ := h.passed t ht
      refine ⟨T, hT, horig, hle, hle', fun hc => hfree (h'.sub hc), ?_, ?_⟩
      · intro hTp
        rcases h'.moved with ⟨hp, htl⟩ | hp
        · exact (hlt (hTp.trans hp)).trans_le htl
        · exact absurd (hTp ▸ hp) hfree
      · intro hr hTp
        rcases h'.moved with ⟨hp, -⟩ | hp
        · exact hroll hr (hTp.trans hp)
        · exact hfree (hTp ▸ hp)
    · obtain ⟨T, hT, horig, hrest⟩ := h'.passed t ht
      refine ⟨T, hT, ?_, hrest⟩
      rcases horig with ⟨hp, htl⟩ | hp
      · rcases h.moved with ⟨hp', htl'⟩ | hp'
        · exact .inl ⟨hp.trans hp', htl'.trans htl⟩
        · exact .inr (hp ▸ hp')
      · exact .inr (h.sub hp)
  frame := by
    have hsub := footprint_trans h.sub h'.sub h.moved h.holds.notFree h.holds.le_tail
    refine (h.frame.mono ?_).trans (h'.frame.mono ?_)
    · exact Set.union_subset_union_left _ (Set.subset_union_left.trans hsub)
    · exact Set.union_subset_union_left _ (Set.subset_union_right.trans hsub)

/-- The tail reached has not been passed. -/
theorem LogStep.tail_not_mem (h : LogStep A D f f' ts m m') : f'.tail ∉ ts := by
  intro hc
  obtain ⟨T, hT, -, hle, hle', -, hlt, -⟩ := h.passed _ hc
  by_cases hTp : T = f'.page
  · exact absurd (hlt hTp) (lt_irrefl _)
  · have := hT.apart h.holds.isPage hTp
    have := h.holds.le_tail
    have := h.holds.tail_le
    omega

theorem LogStep.mono {D' : Set Nat} (h : LogStep A D f f' ts m m') (hD : D ⊆ D') :
    LogStep A D' f f' ts m m' :=
  { h with frame := h.frame.mono (Set.union_subset_union_right _ hD) }

/-- Writing where the step may write, clear of the allocator and of all links, extends it. -/
theorem LogStep.write {W : Set Nat} (h : LogStep A D f f' ts m m') (hW : ChangesOnly W m' m'')
    (hsub : W ⊆ footprint f f' ∪ D) (hfree : Disjoint W (metadata ∪ bytesOf f'.free))
    (hlink : ∀ T, IsPage T → (T = f.page ∨ T ∈ f.free) → Disjoint W (linkBytes T)) :
    LogStep A D f f' ts m m'' where
  holds := { h.holds with rep := A.rep_congr h.holds.rep (hW.eqOn hfree) }
  sub := h.sub
  moved := h.moved
  path := by
    refine h.path.congr fun t ht => ?_
    obtain ⟨T, hT, horig, hle, hle', -⟩ := h.passed t ht
    rw [slotEnd, slotEnd, nextSlot_congr hT ⟨hle, hle'⟩ fun _ => ?_]
    exact hT.pageLink_congr (hW.eqOn (hlink T hT (horig.imp And.left id))).symm
  passed := h.passed
  frame := h.frame.trans (hW.mono hsub)

/-- Writing inside pages in use, apart from their links, extends a step. -/
theorem LogStep.write_inside {W : Set Nat} (h : LogStep A D f f' ts m m')
    (hW : ChangesOnly W m' m'') (hsub : W ⊆ footprint f f' ∪ D)
    (hin : ∀ a ∈ W, ∃ q, IsPage q ∧ q ∉ f'.free ∧ a ∈ pageBytes q ∧ a ∉ linkBytes q) :
    LogStep A D f f' ts m m'' := by
  refine h.write hW hsub (Set.disjoint_left.2 ?_) fun T hT _ => Set.disjoint_left.2 ?_
  · rintro a ha (hm | hb)
    · obtain ⟨q, hq, -, haq, -⟩ := hin a ha
      have := hq.bounds
      simp only [mem_pageBytes, mem_metadata] at *
      omega
    · obtain ⟨q, hq, hqF, haq, -⟩ := hin a ha
      exact not_mem_bytesOf (A.rep_page h.holds.rep) hq hqF haq hb
  · intro a ha hl
    obtain ⟨q, hq, -, haq, haql⟩ := hin a ha
    by_cases hqT : q = T
    · exact haql (hqT ▸ hl)
    · have := hq.apart hT hqT
      simp only [mem_pageBytes, mem_linkBytes] at *
      omega

end Keeps

/-! ## The steps of the code -/

section Code

variable {A : PageAllocator} {D : Set Nat} {f : Frontier} {s s' : State} {p e tail' : Nat}
  {l : List Nat}

/-- An allocation leaves the log where it is. -/
theorem PageAllocator.Allocated.logStep {F' : Set Nat} (h : A.Allocated s s' f.free F' p l)
    (hf : f.Holds A s.mem) (D : Set Nat) :
    LogStep A D f { f with free := F' } [] s.mem s'.mem where
  holds := { hf with rep := h.rep, notFree := fun hc => hf.notFree (h.rest _ hc).1 }
  sub := fun q hq => (h.rest q hq).1
  moved := .inl ⟨rfl, le_rfl⟩
  path := rfl
  passed := by simp
  frame := h.frame.mono fun _ ha => .inl (.inl (.inl ha))

/-- The memory after a new page `p` has become the last one behind `T`. -/
def joinLogPage (m : Memory) (T p : Nat) : Memory :=
  ListNode.pagesCnt.set (ListNode.invalidPages.set (ListNode.objCnt.set (ListNode.invalidCnt.set
    (ListNode.nextOffset.set m (T + 4096) p) (p + 4096) 0) (p + 4096) 1) (p + 4096) 0) (p + 4096) 0

/-- `get_log_entry` either takes the slot behind the tail or opens a new page. -/
theorem getLogEntry_cases (hf : f.Holds A s.mem)
    (h : getLogEntry A s f.tail = .ok (e, tail', s')) :
    (f.tail ≤ f.page + 4048 ∧ e = f.tail ∧ tail' = f.tail + 48 ∧
      s' = { s with
        mem := ListNode.objCnt.set s.mem (f.page + 4096)
          (ListNode.objCnt.get s.mem (f.page + 4096) + 1)
        trace := .logEntry f.tail :: s.trace }) ∨
    (f.page + 4048 < f.tail ∧ ∃ s₁ F', A.Allocated s s₁ f.free F' e [e] ∧
      A.allocFreePages s 1 = .ok (e + 4096, s₁) ∧ tail' = e + 48 ∧
      s' = { s₁ with
        mem := joinLogPage s₁.mem f.page e
        trace := .logEntry e :: .logPage e :: s₁.trace }) := by
  have hmem : f.tail ∈ pageBytes f.page := by
    have := hf.le_tail
    have := hf.tail_le
    rw [mem_pageBytes]
    omega
  rw [getLogEntry] at h
  split at h
  · rename_i hlast
    refine .inr ⟨(hf.isPage.isLastEntry_iff hmem).1 hlast, ?_⟩
    cases ha : A.allocFreePages s writeLogPerAlloc with
    | error _ => rw [ha] at h; cases h
    | ok r =>
      obtain ⟨node, s₁⟩ := r
      obtain ⟨p, l, F', rfl, hlen, hall⟩ := PageAllocator.allocFreePages_spec hf.rep le_rfl ha
      obtain ⟨q, rfl⟩ : ∃ q, l = [q] := List.length_eq_one_iff.1 hlen
      obtain rfl : p = q := hall.chain.chain.head_eq
      have hoff : ListNode.offset.get s₁.mem (p + 4096) = p := hall.chain.offset p (by simp)
      rw [ha] at h
      simp only [bind, Except.bind, hoff, hf.isPage.logPageOff_eq hmem,
        hf.isPage.getNvmPageNodeAddr_eq, Except.ok.injEq, Prod.mk.injEq] at h
      obtain ⟨rfl, rfl, rfl⟩ := h
      exact ⟨s₁, F', hall, ha, rfl, rfl⟩
  · rename_i hlast
    rw [hf.isPage.isLastEntry_iff hmem, not_lt] at hlast
    have hnode : entry2logPage (f.tail + 48) = f.page + 4096 := by
      refine hf.isPage.entry2logPage_eq ?_
      have := hf.le_tail
      rw [mem_pageBytes]
      omega
    refine .inl ⟨hlast, ?_⟩
    simp only [show sizeofFileLogEntry = 48 from rfl, hnode, Except.ok.injEq, Prod.mk.injEq] at h
    obtain ⟨rfl, rfl, rfl⟩ := h
    exact ⟨rfl, rfl, rfl⟩

theorem getLogEntry_error {t : Nat} {x : Fault} (h : getLogEntry A s t = .error x) :
    x = .noPages := by
  rw [getLogEntry] at h
  split at h
  · cases ha : A.allocFreePages s writeLogPerAlloc with
    | error y =>
      rw [ha] at h
      obtain rfl : y = x := by simpa [bind, Except.bind] using h
      exact PageAllocator.allocFreePages_error ha
    | ok r => simp [ha, bind, Except.bind] at h
  · cases h

theorem changesOnly_joinLogPage (m : Memory) (T p : Nat) :
    ChangesOnly (linkBytes T ∪ Set.Ico (p + 4112) (p + 4128)) m (joinLogPage m T p) := by
  have counter (f : Field 40) (hf : 16 ≤ f.off ∧ f.off + f.size ≤ 32) (m : Memory) (v : Nat) :
      ChangesOnly (linkBytes T ∪ Set.Ico (p + 4112) (p + 4128)) m (f.set m (p + 4096) v) := by
    refine (f.changesOnly_set m _ v).mono fun a ha => .inr ?_
    rw [Field.bytes, Set.mem_Ico] at ha
    rw [Set.mem_Ico]
    omega
  have link : ChangesOnly (linkBytes T ∪ Set.Ico (p + 4112) (p + 4128)) m
      (ListNode.nextOffset.set m (T + 4096) p) :=
    (changesOnly_setLink m T p).mono Set.subset_union_left
  exact (((link.trans (counter _ (by decide) _ _)).trans (counter _ (by decide) _ _)).trans
    (counter _ (by decide) _ _)).trans (counter _ (by decide) _ _)

theorem pageLink_joinLogPage {T q : Nat} (hT : IsPage T) (hp : IsPage p) (hq : IsPage q)
    (m : Memory) : pageLink (joinLogPage m T p) q = Function.update (pageLink m) T p q := by
  have hlt := hp.bounds
  have counter (f : Field 40) (hf : 8 ≤ f.off) (m : Memory) (v : Nat) :
      pageLink (f.set m (p + 4096) v) q = pageLink m q := hq.pageLink_set_field hp f hf m v
  rw [joinLogPage, counter _ (by decide), counter _ (by decide), counter _ (by decide),
    counter _ (by decide), hq.pageLink_set hT (by omega)]

/-- Getting an entry advances the log past the old tail. -/
theorem getLogEntry_step (hf : f.Holds A s.mem) (D : Set Nat)
    (h : getLogEntry A s f.tail = .ok (e, tail', s')) :
    ∃ f', f'.tail = tail' ∧ tail' = e + 48 ∧ (f'.page = f.page ∧ e = f.tail ∨
        f'.page ∈ f.free ∧ e = f'.page) ∧ nextSlot s'.mem f.tail = e ∧
      LogStep A D f f' [f.tail] s.mem s'.mem ∧ s'.index = s.index := by
  have hle := hf.le_tail
  have htl := hf.tail_le
  rcases getLogEntry_cases hf h with ⟨hroom, rfl, rfl, rfl⟩ | ⟨hroll, s₁, F', hall, -, rfl, rfl⟩
  · refine ⟨{ f with tail := f.tail + 48 }, rfl, rfl, .inl ⟨rfl, rfl⟩,
      nextSlot_same hf.isPage hle hroom, ?_, rfl⟩
    have hchange := ListNode.objCnt.changesOnly_set s.mem (f.page + 4096)
      (ListNode.objCnt.get s.mem (f.page + 4096) + 1)
    have hnode : ListNode.objCnt.bytes (f.page + 4096) ⊆ pageBytes f.page := fun a ha => by
      simp only [Field.bytes, ListNode.objCnt_off, ListNode.objCnt_size, Set.mem_Ico] at ha
      rw [mem_pageBytes]
      omega
    refine ⟨⟨?_, hf.isPage, hf.notFree, by simp only; omega, by simp only; omega⟩, le_rfl,
      .inl ⟨rfl, by simp only; omega⟩, ?_, ?_, ?_⟩
    · refine A.rep_congr hf.rep (hchange.eqOn ?_)
      rw [Set.disjoint_left]
      rintro a ha (hm | hb)
      · have := hf.isPage.bounds
        have := hnode ha
        simp only [mem_pageBytes, mem_metadata] at *
        omega
      · exact not_mem_bytesOf (A.rep_page hf.rep) hf.isPage hf.notFree (hnode ha) hb
    · rw [segment_cons, segment_nil]
      exact ⟨rfl, by rw [slotEnd_eq, nextSlot_same hf.isPage hle hroom]⟩
    · intro t ht
      obtain rfl := List.mem_singleton.1 ht
      exact ⟨f.page, hf.isPage, .inl ⟨rfl, le_rfl⟩, hle, htl, hf.notFree,
        fun _ => by simp only; omega, fun h => by omega⟩
    · refine hchange.mono fun a ha => .inl (.inr ?_)
      simp only [Field.bytes, ListNode.objCnt_off, ListNode.objCnt_size, Set.mem_Ico] at ha
      rw [mem_tailBytes]
      omega
  · have heF : e ∈ f.free := hall.fresh e (by simp)
    have he : IsPage e := A.rep_page hf.rep e heF
    have hne : f.page ≠ e := by
      rintro hc
      exact hf.notFree (hc ▸ heF)
    have heF' : e ∉ F' := fun hc => (hall.rest e hc).2 (by simp)
    have hTF' : f.page ∉ F' := fun hc => hf.notFree (hall.rest _ hc).1
    have hchange := changesOnly_joinLogPage s₁.mem f.page e
    have hslot : nextSlot (joinLogPage s₁.mem f.page e) f.tail = e := by
      rw [nextSlot_rollover hf.isPage hroll htl, pageLink_joinLogPage hf.isPage he hf.isPage,
        Function.update_self]
    refine ⟨⟨F', e, e + 48⟩, rfl, rfl, .inr ⟨heF, rfl⟩, hslot, ?_, hall.index⟩
    refine ⟨⟨?_, he, heF', by simp only; omega, by simp only; omega⟩,
      fun q hq => (hall.rest q hq).1, .inr heF, ?_, ?_, ?_⟩
    · refine A.rep_congr hall.rep (hchange.eqOn ?_)
      have hF' : ∀ q ∈ F', IsPage q := fun q hq => A.rep_page hf.rep q (hall.rest q hq).1
      rw [Set.disjoint_left]
      rintro a (ha | ha) (hm | hb)
      · have := hf.isPage.bounds
        simp only [mem_linkBytes, mem_metadata] at *
        omega
      · exact not_mem_bytesOf hF' hf.isPage hTF'
          (by simp only [mem_linkBytes, mem_pageBytes] at *; omega) hb
      · have := he.bounds
        simp only [Set.mem_Ico, mem_metadata] at *
        omega
      · exact not_mem_bytesOf hF' he heF' (by simp only [Set.mem_Ico, mem_pageBytes] at *; omega) hb
    · rw [segment_cons, segment_nil]
      exact ⟨rfl, by rw [slotEnd_eq, hslot]⟩
    · intro t ht
      obtain rfl := List.mem_singleton.1 ht
      exact ⟨f.page, hf.isPage, .inl ⟨rfl, le_rfl⟩, hle, htl, hTF', fun hc => absurd hc hne,
        fun _ => hne⟩
    · refine (hall.frame.mono fun a ha => .inl (.inl (.inl ha))).trans (hchange.mono ?_)
      rintro a (ha | ha)
      · refine .inl (.inr ?_)
        simp only [mem_linkBytes, mem_tailBytes] at *
        omega
      · refine .inl (.inl (.inr ⟨e, ⟨heF, heF'⟩, ?_⟩))
        simp only [Set.mem_Ico, mem_pageBytes] at *
        omega

/-- Getting an entry takes at most a page off the supply, and only if the last page is full. -/
theorem getLogEntry_lasts {n k : Nat} (hf : f.Holds A s.mem)
    (h : getLogEntry A s f.tail = .ok (e, tail', s')) (hk : f.page + 4048 < f.tail → 1 ≤ k)
    (hlast : A.Lasts (n + k) s.mem) : A.Lasts n s'.mem := by
  rcases getLogEntry_cases hf h with ⟨-, rfl, -, rfl⟩ | ⟨hfull, s₁, F', hall, halloc, -, rfl⟩
  · refine (hlast.mono (Nat.le_add_right _ _)).congr hf.rep (eqOn_of_inUse (A.rep_page hf.rep)
      (ListNode.objCnt.changesOnly_set _ _ _) fun a ha => ⟨f.page, hf.isPage, hf.notFree, ?_⟩)
    simp only [Field.bytes, ListNode.objCnt_off, ListNode.objCnt_size, Set.mem_Ico] at ha
    rw [mem_pageBytes]
    omega
  · have hlast₁ : A.Lasts n s₁.mem :=
      (hlast.mono (Nat.add_le_add_left (hk hfull) n)).allocFreePages hf.rep le_rfl
        (by decide) halloc
    refine hlast₁.congr hall.rep (eqOn_of_inUse (A.rep_page hall.rep)
      (changesOnly_joinLogPage s₁.mem f.page e) fun a ha => ?_)
    rcases ha with ha | ha
    · refine ⟨f.page, hf.isPage, fun hc => hf.notFree (hall.rest _ hc).1, ?_⟩
      rw [mem_linkBytes] at ha
      rw [mem_pageBytes]
      omega
    · refine ⟨e, hall.chain.page e (by simp), fun hc => (hall.rest e hc).2 (by simp), ?_⟩
      rw [Set.mem_Ico] at ha
      rw [mem_pageBytes]
      omega

/-- There is a slot behind the tail as long as an entry fits into the last page. -/
theorem getLogEntry_ok (hf : f.Holds A s.mem) (hroom : f.tail ≤ f.page + 4048) :
    ∃ r, getLogEntry A s f.tail = .ok r := by
  have := hf.le_tail
  have hlast : ¬ isLastEntry f.tail = true := by
    rw [hf.isPage.isLastEntry_iff (by rw [mem_pageBytes]; omega)]
    omega
  rw [getLogEntry, if_neg hlast]
  exact ⟨_, rfl⟩

/-- It fails only if the last page is full and there is no page for the next one. -/
theorem getLogEntry_starved {x : Fault} (hf : f.Holds A s.mem)
    (h : getLogEntry A s f.tail = .error x) :
    x = .noPages ∧ f.page + 4048 < f.tail ∧ ¬ A.Lasts 1 s.mem := by
  refine ⟨getLogEntry_error h, ?_⟩
  have hmem : f.tail ∈ pageBytes f.page := by
    have := hf.le_tail
    have := hf.tail_le
    rw [mem_pageBytes]
    omega
  rw [getLogEntry] at h
  split at h
  · rename_i hlast
    refine ⟨(hf.isPage.isLastEntry_iff hmem).1 hlast, fun hlasts => ?_⟩
    have hlasts : A.Lasts (0 + writeLogPerAlloc) s.mem := hlasts
    obtain ⟨r, hr⟩ := hlasts.allocFreePages_ok hf.rep le_rfl (by decide)
    rw [hr] at h
    cases h
  · cases h

/-- Data pages `l` and a slot `e` for their entry have been obtained. -/
structure Obtained (A : PageAllocator) (f f' : Frontier) (s s' : State) (p : Nat) (l : List Nat)
    (e : Nat) : Prop where
  step : LogStep A ∅ f f' [f.tail] s.mem s'.mem
  place : f'.page = f.page ∧ e = f.tail ∨ f'.page ∈ f.free ∧ e = f'.page
  tail : f'.tail = e + 48
  chain : PageChain s'.mem p l
  fresh : ∀ q ∈ l, q ∈ f.free ∧ q ∉ f'.free ∧ q ≠ f'.page
  body : ∀ q ∈ l, ∀ a ∈ pageBytes q, a ∉ linkBytes q → s'.mem a = s.mem a
  index : s'.index = s.index

/-- Every write starts with an allocation and a new log entry. -/
theorem obtained_of_allocFreePages {s₁ : State} {n node : Nat} (hf : f.Holds A s.mem) (hn : 1 ≤ n)
    (halloc : A.allocFreePages s n = .ok (node, s₁))
    (hentry : getLogEntry A s₁ f.tail = .ok (e, tail', s')) :
    ∃ f' p l, node = p + 4096 ∧ tail' = f'.tail ∧ l.length = n ∧ Obtained A f f' s s' p l e := by
  obtain ⟨p, l, F₁, rfl, hlen, hall⟩ := PageAllocator.allocFreePages_spec hf.rep hn halloc
  have hlF : ∀ q ∈ l, q ∈ f.free ∧ q ∉ F₁ := fun q hq =>
    ⟨hall.fresh q hq, fun hc => (hall.rest q hc).2 hq⟩
  have hpage : ∀ q ∈ l, IsPage q := hall.chain.page
  have step₁ := hall.logStep hf ∅
  obtain ⟨f', rfl, htail', hplace, -, step₂, hindex⟩ :=
    getLogEntry_step (f := { f with free := F₁ }) step₁.holds ∅ hentry
  have hkeep : ∀ q ∈ l, Set.EqOn s'.mem s₁.mem (pageBytes q) := fun q hq a ha =>
    step₂.keeps step₁.holds (hpage q hq) (hlF q hq).2
      (fun hc => hf.notFree (hc ▸ (hlF q hq).1)) ha (Set.notMem_empty a)
  refine ⟨f', p, l, rfl, rfl, hlen, step₁.trans step₂ (by simp),
    hplace.imp id fun hc => ⟨step₁.sub hc.1, hc.2⟩, htail', ?_, ?_, ?_, hindex.trans hall.index⟩
  · exact hall.chain.congr fun q hq a ha =>
      hkeep q hq (by rw [Set.mem_Ico] at ha; rw [mem_pageBytes]; omega)
  · refine fun q hq => ⟨(hlF q hq).1, fun hc => (hlF q hq).2 (step₂.sub hc), ?_⟩
    rintro rfl
    rcases hplace with ⟨hp, -⟩ | ⟨hp, -⟩
    · exact hf.notFree (hp ▸ (hlF _ hq).1)
    · exact (hlF _ hq).2 hp
  · intro q hq a ha hlink
    refine (hkeep q hq ha).trans (hall.frame a ?_)
    rintro (hm | ⟨r, hr, har⟩)
    · have := (hpage q hq).bounds
      simp only [mem_pageBytes, mem_metadata] at *
      omega
    · by_cases hqr : q = r
      · exact hlink (hqr ▸ har)
      · have := (hpage q hq).apart (A.rep_page hf.rep r hr) hqr
        simp only [mem_pageBytes, mem_linkBytes] at *
        omega

end Code

end Atfs
