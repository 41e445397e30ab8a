import Atfs.Inode.Basic

/-!
# The slots of a log

A page body holds 85 entries. The entries of a fresh log fill its pages slot by slot, and
`get_log_entry` opens the next page exactly when the last one is full.
-/

namespace Atfs

open ByteMemory LinkedChain

/-- `n` successive calls of `get_log_entry`: the entries, the tail and the state after. -/
def getLogEntries (A : PageAllocator) : Nat → State → Nat → Except Fault (List Nat × Nat × State)
  | 0, s, logTail => .ok ([], logTail, s)
  | n + 1, s, logTail => do
    let (entries, logTail, s) ← getLogEntries A n s logTail
    let (entry, logTail, s) ← getLogEntry A s logTail
    .ok (entries ++ [entry], logTail, s)

/-- The entries of a log fill the slots of the pages in order, and the last page is opened
only when it is needed. -/
structure SlotLog (m : Memory) (head tail : Nat) (pages entries : List Nat) : Prop where
  chain : Segment (pageLink m) head pages offsetNull
  isPage : ∀ p ∈ pages, IsPage p
  nodup : pages.Nodup
  slot : ∀ i e, entries[i]? = some e → ∃ p, pages[i / 85]? = some p ∧ e = p + 48 * (i % 85)
  count : pages.length = max 1 ((entries.length + 84) / 85)
  tail : ∃ p, pages[pages.length - 1]? = some p ∧
    tail = p + 48 * (entries.length - 85 * (pages.length - 1))

section Run

variable {A : PageAllocator} {f f' : Frontier} {s s' : State} {head e n : Nat}
  {pages entries : List Nat}

/-- The pages of the log are in use, and the tail lies in the last of them. -/
structure SlotLog.At (f : Frontier) (pages : List Nat) : Prop where
  inUse : ∀ p ∈ pages, p ∉ f.free
  last : pages[pages.length - 1]? = some f.page

/-- Where the tail stands in the last page. -/
theorem SlotLog.tail_eq (h : SlotLog s.mem head f.tail pages entries) (hat : SlotLog.At f pages) :
    f.tail = f.page + 48 * (entries.length - 85 * (pages.length - 1)) := by
  obtain ⟨p, hp, htail⟩ := h.tail
  obtain rfl : f.page = p := Option.some.inj (hat.last.symm.trans hp)
  exact htail

/-- There is room for an entry as long as the pages are not full. -/
theorem SlotLog.room_iff (h : SlotLog s.mem head f.tail pages entries) (hat : SlotLog.At f pages) :
    f.tail ≤ f.page + 4048 ↔ entries.length < 85 * pages.length := by
  have htail := h.tail_eq hat
  have := h.count
  omega

/-- The slots after one more entry at `e`, in a list of pages that extends the old one. -/
theorem SlotLog.slot_snoc {rest : List Nat} (h : SlotLog s.mem head f.tail pages entries) {p : Nat}
    (hp : (pages ++ rest)[entries.length / 85]? = some p)
    (he : e = p + 48 * (entries.length % 85)) :
    ∀ i e', (entries ++ [e])[i]? = some e' →
      ∃ p, (pages ++ rest)[i / 85]? = some p ∧ e' = p + 48 * (i % 85) := by
  intro i e' he'
  rw [List.getElem?_append] at he'
  split_ifs at he' with hi
  · obtain ⟨q, hq, rfl⟩ := h.slot i e' he'
    refine ⟨q, ?_, rfl⟩
    rw [List.getElem?_append_left (List.getElem?_eq_some_iff.1 hq).1, hq]
  · have hlen := (List.getElem?_eq_some_iff.1 he').1
    rw [List.length_singleton] at hlen
    obtain rfl : i = entries.length := by omega
    obtain rfl : e = e' := by simpa using he'
    exact ⟨p, hp, he⟩

/-- One more entry takes the next slot, or the first one of a new page. -/
theorem SlotLog.getLogEntry (h : SlotLog s.mem head f.tail pages entries) (hat : SlotLog.At f pages)
    (hf : f.Holds A s.mem) {tail' : Nat} (hget : getLogEntry A s f.tail = .ok (e, tail', s')) :
    ∃ f' pages', f'.tail = tail' ∧ SlotLog.At f' pages' ∧ LogStep A ∅ f f' [f.tail] s.mem s'.mem ∧
      SlotLog s'.mem head tail' pages' (entries ++ [e]) := by
  obtain ⟨f', rfl, htail', hplace, -, hstep, -⟩ := getLogEntry_step hf ∅ hget
  have htail := h.tail_eq hat
  have hroom := h.room_iff hat
  have hcount := h.count
  have hpage' := hstep.holds.isPage
  have hle := hf.le_tail
  have hle' := hf.tail_le
  have hother : f'.page ∈ f.free → f'.page + 4136 ≤ f.page ∨ f.page + 4136 ≤ f'.page := fun hc =>
    hpage'.apart hf.isPage (by rintro hp; exact hf.notFree (hp ▸ hc))
  have hlast := (List.getElem?_eq_some_iff.1 hat.last).1
  rcases getLogEntry_cases hf hget with ⟨hfit, rfl, -, rfl⟩ | ⟨hfull, s₁, F', hall, -, -, rfl⟩
  · have hp : f'.page = f.page := by
      rcases hplace with ⟨hp, -⟩ | ⟨hp, he⟩
      · exact hp
      · have := hother hp
        omega
    have hlt := hroom.1 hfit
    have hpos : pages[entries.length / 85]? = some f.page := by
      rw [show entries.length / 85 = pages.length - 1 by omega]
      exact hat.last
    have hlast : (pages ++ [])[entries.length / 85]? = some f.page := by rwa [List.append_nil]
    have hslot := h.slot_snoc hlast (show f.tail = f.page + 48 * (entries.length % 85) by omega)
    rw [List.append_nil] at hslot
    refine ⟨f', pages, rfl, ⟨fun q hq hc => hat.inUse q hq (hstep.sub hc), hp ▸ hat.last⟩, hstep,
      ?_, h.isPage, h.nodup, hslot, ?_, f.page, hat.last, ?_⟩
    · refine h.chain.congr fun q hq => ?_
      exact ((h.isPage q hq).pageLink_set_field hf.isPage _ (by decide) _ _).symm
    · rw [List.length_append, List.length_singleton]
      omega
    · rw [List.length_append, List.length_singleton]
      omega
  · have he : IsPage e := hall.chain.page e (by simp)
    have heF : e ∈ f.free := hall.fresh e (by simp)
    have hne : e ∉ pages := fun hc => hat.inUse e hc heF
    have hp : f'.page = e := by
      rcases hplace with ⟨hp, rfl⟩ | ⟨-, he⟩
      · have := he.apart hf.isPage fun hc => hf.notFree (hc ▸ heF)
        omega
      · exact he.symm
    have hfull' : entries.length = 85 * pages.length := by omega
    have hlen : (pages ++ [e]).length = pages.length + 1 := by simp
    have hlink (q : Nat) (hq : IsPage q) : pageLink (joinLogPage s₁.mem f.page e) q =
        Function.update (pageLink s₁.mem) f.page e q := pageLink_joinLogPage hf.isPage he hq _
    obtain ⟨xs, rfl⟩ : ∃ xs, pages = xs ++ [f.page] := by
      refine ⟨pages.dropLast, (List.dropLast_append_getLast? f.page ?_).symm⟩
      rw [List.getLast?_eq_getElem?]
      exact hat.last
    have hTxs : f.page ∉ xs := fun hc => by
      have := List.nodup_append.1 h.nodup
      exact this.2.2 _ hc _ (by simp) rfl
    have hold : Segment (pageLink s₁.mem) head (xs ++ [f.page]) offsetNull := by
      refine h.chain.congr fun q hq => ((h.isPage q hq).pageLink_congr fun a ha => ?_)
      refine (hall.keeps hf.rep (h.isPage q hq) (hat.inUse q hq) ?_).symm
      rw [Set.mem_Ico] at ha
      rw [mem_pageBytes]
      omega
    have hend : pageLink s₁.mem e = offsetNull := by
      have := hall.chain.chain
      rw [segment_cons, segment_nil] at this
      exact this.2
    refine ⟨f', (xs ++ [f.page]) ++ [e], rfl, ⟨?_, ?_⟩, hstep, ?_, ?_, ?_, ?_, ?_, e, ?_, ?_⟩
    · intro q hq hc
      rcases List.mem_append.1 hq with hq | hq
      · exact hat.inUse q hq (hstep.sub hc)
      · obtain rfl := List.mem_singleton.1 hq
        exact hstep.holds.notFree (hp ▸ hc)
    · rw [hp, hlen]
      simp
    · have hnew : Segment (Function.update (pageLink s₁.mem) f.page e) head
          ((xs ++ [f.page]) ++ [e]) offsetNull := by
        rw [segment_snoc, Function.update_of_ne (by rintro rfl; exact hne (by simp))]
        exact ⟨hold.relink_last hTxs, hend⟩
      refine hnew.congr fun q hq => (hlink q ?_).symm
      rcases List.mem_append.1 hq with hq | hq
      · exact h.isPage q hq
      · obtain rfl := List.mem_singleton.1 hq
        exact he
    · intro q hq
      rcases List.mem_append.1 hq with hq | hq
      · exact h.isPage q hq
      · obtain rfl := List.mem_singleton.1 hq
        exact he
    · exact h.nodup.append (List.nodup_singleton e) (by simpa using hne)
    · refine h.slot_snoc (p := e) ?_ (by omega)
      rw [show entries.length / 85 = (xs ++ [f.page]).length by omega]
      simp
    · have : (entries ++ [e]).length = entries.length + 1 := by simp
      omega
    · rw [hlen]
      simp
    · have : (entries ++ [e]).length = entries.length + 1 := by simp
      omega

end Run

/-! ## What follows for the places -/

/-- The entries keep clear of each other and of the page nodes, and the functions that find the
page of a place find the right one. -/
structure SlotsApart (m : Memory) (tail : Nat) (pages entries : List Nat) : Prop where
  body : ∀ i e, entries[i]? = some e →
    ∃ p, pages[i / 85]? = some p ∧ p ≤ e ∧ e + sizeofFileLogEntry ≤ p + pageSize
  apart : ∀ (i j e e' : Nat), entries[i]? = some e → entries[j]? = some e' → i ≠ j →
    e + sizeofFileLogEntry ≤ e' ∨ e' + sizeofFileLogEntry ≤ e
  node : ∀ i e, entries[i]? = some e → ∃ p, pages[i / 85]? = some p ∧
    entry2logPage e = getNvmPageNodeAddr p ∧
    entry2logPage (e + sizeofFileLogEntry) = getNvmPageNodeAddr p
  next : ∀ i p, pages[i]? = some p → ∀ j < 85,
    nextLogPage m (p + sizeofFileLogEntry * j) = (pages[i + 1]?).getD offsetNull
  tail : ∃ p, pages[pages.length - 1]? = some p ∧ p ≤ tail ∧ tail < p + pageSize ∧
    entry2logPage tail = getNvmPageNodeAddr p

section Places

variable {m : Memory} {head tail : Nat} {pages entries : List Nat}

/-- A place in the body of a page, or right behind it, belongs to the page. -/
theorem IsPage.entry2logPage_body {p a : Nat} (hp : IsPage p) (hle : p ≤ a) (hlt : a < p + 4136) :
    entry2logPage a = getNvmPageNodeAddr p := by
  rw [hp.entry2logPage_eq (mem_pageBytes.2 ⟨hle, hlt⟩), hp.getNvmPageNodeAddr_eq]

theorem SlotLog.apart (h : SlotLog m head tail pages entries) :
    SlotsApart m tail pages entries := by
  have size : sizeofFileLogEntry = 48 := rfl
  have hpage : ∀ i p, pages[i]? = some p → IsPage p := fun i p hp =>
    h.isPage p (List.mem_of_getElem? hp)
  refine ⟨?_, ?_, ?_, ?_, ?_⟩
  · intro i e he
    obtain ⟨p, hp, rfl⟩ := h.slot i e he
    refine ⟨p, hp, by omega, ?_⟩
    rw [size, pageSize_eq]
    omega
  · intro i j e e' he he' hij
    obtain ⟨p, hp, rfl⟩ := h.slot i e he
    obtain ⟨q, hq, rfl⟩ := h.slot j e' he'
    by_cases hpq : p = q
    · -- two slots of one page
      subst hpq
      have hsame : i / 85 = j / 85 :=
        (List.getElem?_inj (List.getElem?_eq_some_iff.1 hp).1 h.nodup).1 (hp.trans hq.symm)
      rw [size]
      omega
    · have := (hpage _ p hp).apart (hpage _ q hq) hpq
      rw [size]
      omega
  · intro i e he
    obtain ⟨p, hp, rfl⟩ := h.slot i e he
    refine ⟨p, hp, (hpage _ p hp).entry2logPage_body (by omega) (by omega), ?_⟩
    rw [size]
    exact (hpage _ p hp).entry2logPage_body (by omega) (by omega)
  · intro i p hp j hj
    rw [size, (hpage _ p hp).nextLogPage_eq (mem_pageBytes.2 ⟨by omega, by omega⟩)]
    obtain ⟨hi, rfl⟩ := List.getElem?_eq_some_iff.1 hp
    by_cases hlast : i + 1 < pages.length
    · rw [h.chain.link hlast, List.getElem?_eq_getElem hlast]
      rfl
    · rw [h.chain.link_last hi (by omega), List.getElem?_eq_none (by omega)]
      rfl
  · obtain ⟨p, hp, htail⟩ := h.tail
    have hcount := h.count
    refine ⟨p, hp, by omega, ?_, (hpage _ p hp).entry2logPage_body (by omega) (by omega)⟩
    rw [pageSize_eq]
    omega

end Places

/-! ## The log of a new inode -/

section New

variable {A : PageAllocator} {F : Set Nat} {s s₁ : State} {inode p : Nat}

theorem getLogEntries_error {n t : Nat} {x : Fault} (h : getLogEntries A n s t = .error x) :
    x = .noPages := by
  induction n generalizing x with
  | zero => cases h
  | succ n ih =>
    rw [getLogEntries] at h
    rcases bind_eq_error.1 h with h | ⟨⟨es, t', s'⟩, -, h⟩
    · exact ih h
    · rcases bind_eq_error.1 h with h | ⟨⟨e, t'', s''⟩, -, h⟩
      · exact getLogEntry_error h
      · cases h

/-- The log of a new inode is one empty page. -/
theorem Initialised.slotLog {f : Frontier} (h : Initialised A F s s₁ inode f) :
    SlotLog s₁.mem f.page f.tail [f.page] [] := by
  refine ⟨h.chain.chain, h.chain.page, h.chain.nodup, by simp, rfl, f.page, rfl, ?_⟩
  rw [h.tail]
  simp

/-- The calls fill slot after slot from the start of the log on. -/
theorem getLogEntries_run {f : Frontier} {head n tail' : Nat} {es : List Nat} {s' : State}
    (h : SlotLog s.mem head f.tail [f.page] []) (hf : f.Holds A s.mem)
    (hrun : getLogEntries A n s f.tail = .ok (es, tail', s')) :
    es.length = n ∧ ∃ f' pages ts, f'.tail = tail' ∧ SlotLog.At f' pages ∧
      LogStep A ∅ f f' ts s.mem s'.mem ∧ SlotLog s'.mem head tail' pages es := by
  induction n generalizing es tail' s' with
  | zero =>
    rw [getLogEntries] at hrun
    simp only [Except.ok.injEq, Prod.mk.injEq] at hrun
    obtain ⟨rfl, rfl, rfl⟩ := hrun
    exact ⟨rfl, f, [f.page], [], rfl, ⟨by simpa using hf.notFree, rfl⟩, .refl hf ∅, h⟩
  | succ n ih =>
    rw [getLogEntries] at hrun
    obtain ⟨⟨es₁, t₁, s₁⟩, hrun₁, hrun⟩ := bind_eq_ok.1 hrun
    obtain ⟨⟨e, t₂, s₂⟩, hget, hrun⟩ := bind_eq_ok.1 hrun
    simp only [Except.ok.injEq, Prod.mk.injEq] at hrun
    obtain ⟨rfl, rfl, rfl⟩ := hrun
    obtain ⟨hlen, f₁, pages₁, ts, rfl, hat, hstep, hlog⟩ := ih hrun₁
    obtain ⟨f₂, pages₂, rfl, hat₂, hstep₂, hlog₂⟩ := hlog.getLogEntry hat hstep.holds hget
    refine ⟨by simp [hlen], f₂, pages₂, ts ++ [f₁.tail], rfl, hat₂, hstep.trans hstep₂ (by simp),
      hlog₂⟩

/-- However many entries are taken from the log of a new inode, they are the slots of the chain
from `log_head` in order, and `log_tail` stays in its last page. -/
theorem getLogEntries_slots (hF : A.Rep s.mem F) (hin : InodeIn inode p) (hpF : p ∉ F)
    (hinit : initAtfsInode A s inode = .ok s₁) (n : Nat) :
    (∀ x, getLogEntries A n s₁ (AtfsInode.logTail.get s₁.mem inode) = .error x → x = .noPages) ∧
    ∀ es tail s₂, getLogEntries A n s₁ (AtfsInode.logTail.get s₁.mem inode) = .ok (es, tail, s₂) →
      es.length = n ∧ ∃ pages, SlotLog s₂.mem (AtfsInode.logHead.get s₂.mem inode) tail pages es ∧
        SlotsApart s₂.mem tail pages es := by
  refine ⟨fun x => getLogEntries_error, ?_⟩
  intro es tail s₂ hrun
  obtain ⟨f, hnew⟩ := initAtfsInode_spec hF hin hpF hinit
  rw [hnew.logTail, ← hnew.tail] at hrun
  obtain ⟨hlen, f', pages, ts, -, -, hstep, hlog⟩ := getLogEntries_run hnew.slotLog hnew.holds hrun
  have hhead : AtfsInode.logHead.get s₂.mem inode = f.page := by
    rw [← hnew.logHead]
    obtain ⟨hp, hle, hle'⟩ := hin
    rw [show sizeofAtfsInode = 216 from rfl] at hle'
    refine Field.get_congr fun a ha => ?_
    simp only [Field.bytes, AtfsInode.logHead_off, AtfsInode.logHead_size, Set.mem_Ico] at ha
    refine hstep.keeps hnew.holds hp (fun hc => hpF (hnew.sub hc)) ?_ ?_ (Set.notMem_empty a)
    · rintro rfl
      exact hpF hnew.fresh
    · rw [mem_pageBytes]
      omega
  rw [hhead]
  exact ⟨hlen, pages, hlog, hlog.apart⟩

/-- There are entries as long as the pages last: the first 85 need no other page, and from then on
each page is for 85 more. -/
theorem getLogEntries_ok {f : Frontier} {head n k : Nat} (h : SlotLog s.mem head f.tail [f.page] [])
    (hf : f.Holds A s.mem) (hlast : A.Lasts ((n - 1) / 85 + k) s.mem) :
    ∃ es tail s', getLogEntries A n s f.tail = .ok (es, tail, s') ∧ A.Lasts k s'.mem := by
  induction n generalizing k with
  | zero => exact ⟨[], f.tail, s, rfl, hlast.mono (by omega)⟩
  | succ n ih =>
    obtain ⟨es, tail, s', hrun, hlast'⟩ := ih (k := k + (n / 85 - (n - 1) / 85))
      (hlast.mono (by omega))
    obtain ⟨hlen, f', pages, ts, rfl, hat, hstep, hlog⟩ := getLogEntries_run h hf hrun
    have hfull : f'.page + 4048 < f'.tail → 1 ≤ n / 85 - (n - 1) / 85 := by
      intro hfull
      have hroom := hlog.room_iff hat
      have := hlog.count
      omega
    cases hget : getLogEntry A s' f'.tail with
    | error x =>
      obtain ⟨-, hroll, hnot⟩ := getLogEntry_starved hstep.holds hget
      exact absurd (hlast'.mono ((hfull hroll).trans (Nat.le_add_left _ _))) hnot
    | ok r =>
      obtain ⟨e, tail', t⟩ := r
      refine ⟨es ++ [e], tail', t, ?_, getLogEntry_lasts hstep.holds hget hfull hlast'⟩
      rw [getLogEntries]
      exact bind_eq_ok.2 ⟨_, hrun, bind_eq_ok.2 ⟨_, hget, rfl⟩⟩

/-- Of 100 entries of a new inode the 85th ends 16 bytes before the node of the first page, and the
next one starts the page behind it. -/
theorem getLogEntries_slots_sample :
    ∃ s₁ es tail s₂, initAtfsInode pageAllocator (fileState 0 (fun _ _ => 0) fun _ => offsetNull)
        (pageOff 4098) = .ok s₁ ∧
      getLogEntries pageAllocator 100 s₁ (AtfsInode.logTail.get s₁.mem (pageOff 4098)) =
        .ok (es, tail, s₂) ∧
      es[84]? = some (AtfsInode.logHead.get s₂.mem (pageOff 4098) + 4032) ∧
      es[85]? = some (pageLink s₂.mem (AtfsInode.logHead.get s₂.mem (pageOff 4098))) := by
  have hin : InodeIn (pageOff 4098) (pageOff 4098) :=
    ⟨isPage_pageOff (by omega), le_rfl, by rw [show sizeofAtfsInode = 216 from rfl]; omega⟩
  have hfree : pageOff 4098 ∉ fileFrontier.free := pageOff_not_free (by omega)
  have hrep : pageAllocator.Rep (fileState 0 (fun _ _ => 0) fun _ => offsetNull).mem
    fileFrontier.free := fileState_stocked.rep
  have hstock : Stocked pageAllocator (fileState 0 (fun _ _ => 0) fun _ => offsetNull).mem
    fileFrontier.free (1 + 1) := fileState_stocked.mono (by omega)
  obtain ⟨s₁, F', hinit, hstock₁⟩ := hstock.initAtfsInode pageAllocator_follows hin hfree
  obtain ⟨f, hnew⟩ := initAtfsInode_spec hrep hin hfree hinit
  obtain ⟨es, tail, s₂, hrun, -⟩ := getLogEntries_ok (n := 100) (k := 0) hnew.slotLog hnew.holds
    (hstock₁.lasts pageAllocator_follows)
  have hrun' : getLogEntries pageAllocator 100 s₁ (AtfsInode.logTail.get s₁.mem (pageOff 4098)) =
      .ok (es, tail, s₂) := by rw [hnew.logTail, ← hnew.tail, hrun]
  obtain ⟨hlen, pages, hlog, -⟩ :=
    (getLogEntries_slots hrep hin hfree hinit 100).2 es tail s₂ hrun'
  refine ⟨s₁, es, tail, s₂, hinit, hrun', ?_⟩
  have hpages : pages.length = 2 := by
    have := hlog.count
    omega
  have hhead : (pageLink s₂.mem)^[0] (AtfsInode.logHead.get s₂.mem (pageOff 4098)) = pages[0] :=
    hlog.chain.iterate (by omega)
  rw [Function.iterate_zero, id_eq] at hhead
  have hlink : pageLink s₂.mem pages[0] = pages[1] := hlog.chain.link (by omega)
  obtain ⟨p, hp, he⟩ := hlog.slot 84 _ (List.getElem?_eq_getElem (by omega))
  obtain ⟨q, hq, he'⟩ := hlog.slot 85 _ (List.getElem?_eq_getElem (by omega))
  have hp : pages[0] = p := (List.getElem?_eq_some_iff.1 hp).2
  have hq : pages[1] = q := (List.getElem?_eq_some_iff.1 hq).2
  rw [hhead, hlink, hp, hq, List.getElem?_eq_getElem (by omega),
    List.getElem?_eq_getElem (by omega)]
  exact ⟨congrArg some he, congrArg some he'⟩

end New

end Atfs
