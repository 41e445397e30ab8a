import Atfs.Gc.Collect

/-!
# The entries of a log page

The loop of `gc_log_block` over the entries: every run of valid pages of every entry has become an
entry of its own, every invalid page stands on the chain that is freed, and no page is lost.
-/

namespace Atfs

open ByteMemory LinkedChain MarkRuns

/-- The runs of valid pages of the entries, in the order in which they are collected. -/
def runsOf (es : List LogEntry) : List (LogEntry × Nat × Nat) :=
  es.flatMap fun E => (E.validRuns 0).map fun r => (E, r.1, r.2)

/-- The invalid pages of the entries. -/
def invalidOf (es : List LogEntry) : List Nat := es.flatMap (·.invalidFrom 0)

/-- The log page at `T` holds the entries `es`, which own their chains of pages. -/
structure Collectable (A : PageAllocator) (f : Frontier) (m : Memory) (T : Nat)
    (es : List LogEntry) : Prop where
  holds : f.Holds A m
  isPage : IsPage T
  offset : ListNode.offset.get m (T + 4096) = T
  objCnt : ListNode.objCnt.get m (T + 4096) = es.length
  inUse : T ∉ f.free
  tail : T = f.page → T + 48 * es.length ≤ f.tail
  place : ∀ i E, es[i]? = some E → E.off = T + 48 * i
  length_le : es.length ≤ 85
  stored : ∀ E ∈ es, E.Stored m
  nodup : (pagesOf es).Nodup
  held : Held f {q | q ∈ pagesOf es}

/-- The loop of `gc_log_block` over the entries of a page, with the variables as it finds them. -/
def collectEntries (A : PageAllocator) (inode pageNode : Nat) (s : State) :
    Except Fault (GcVars × State) :=
  gcEntries A inode (ListNode.offset.get s.mem pageNode) (ListNode.objCnt.get s.mem pageNode)
    ⟨AtfsInode.logTail.get s.mem inode, none, 0⟩ s

section Entries

variable {A : PageAllocator} {f₀ f : Frontier} {s₀ s : State} {T inode : Nat} {g : GcVars}
  {es ns : List LogEntry} {evs : List Event} {all freed others : List Nat} {E : LogEntry}

theorem Collectable.settled (h : Collectable A f s.mem T es) (hE : E ∈ es) : Settled f E.off := by
  obtain ⟨i, hi, rfl⟩ := List.getElem_of_mem hE
  have hoff := h.place i _ (List.getElem?_eq_getElem hi)
  have hle := h.length_le
  refine ⟨T, h.isPage, h.inUse, by omega, by omega, fun hT => ?_⟩
  have := h.tail hT
  omega

/-- Collecting one entry. -/
theorem Collecting.gcEntry (h : Collecting A all f₀ f s₀ s g ns evs freed (E.pages ++ others))
    (hE : E.Stored s.mem) (hset : Settled f E.off) (inode : Nat) :
    (Atfs.gcEntry A inode E.off g s = .error .noPages ∧
      ¬ A.Lasts (entryPages (ns.length + (E.validRuns 0).length)) s₀.mem) ∨
    ∃ g' s' f' evs' ns' freed', Atfs.gcEntry A inode E.off g s = .ok (g', s') ∧
      List.Forall₂ (fun r N => E.Moved r.1 r.2 N) (E.validRuns 0) ns' ∧
      freed'.Perm (freed ++ E.invalidFrom 0) ∧
      Collecting A all f₀ f' s₀ s' g' (ns ++ ns') (evs' ++ evs) freed' others ∧
      ∃ ts, LogStep A (linkBytesOf {q | q ∈ E.pages ++ freed}) f f' ts s.mem s'.mem :=
  h.gcPages (p := ⟨FileLogEntry.data.get s.mem E.off, 0⟩) hE.rest hset (Nat.zero_le _)
    (.inr (.inl rfl)) (by rw [hE.words.numPages]; exact Nat.lt_succ_self _) inode

theorem Collectable.start (h : Collectable A f₀ s₀.mem T es) :
    Collecting A (pagesOf es) f₀ f₀ s₀ s₀ ⟨f₀.tail, none, 0⟩ [] [] [] (pagesOf es) where
  holds₀ := h.holds
  held₀ := h.held
  nodup := h.nodup
  perm := List.Perm.refl _
  appends := .nil h.holds
  recorded := .refl s₀
  index := rfl
  tail := rfl
  stored := fun N hN => absurd hN List.not_mem_nil
  settled := fun N hN => absurd hN List.not_mem_nil
  freeList := ⟨rfl, fun _ => rfl, fun k hk => by cases hk⟩
  lasts := fun _ hlast => hlast

/-- The loop over the first `i` entries. -/
theorem Collectable.gcEntries (h : Collectable A f₀ s₀.mem T es) (inode : Nat) {i : Nat}
    (hi : i ≤ es.length) :
    (Atfs.gcEntries A inode T i ⟨f₀.tail, none, 0⟩ s₀ = .error .noPages ∧
      ¬ A.Lasts (entryPages (runsOf (es.take i)).length) s₀.mem) ∨
    ∃ g s f evs ns freed, Atfs.gcEntries A inode T i ⟨f₀.tail, none, 0⟩ s₀ = .ok (g, s) ∧
      List.Forall₂ (fun r N => r.1.Moved r.2.1 r.2.2 N) (runsOf (es.take i)) ns ∧
      freed.Perm (invalidOf (es.take i)) ∧
      Collecting A (pagesOf es) f₀ f s₀ s g ns evs freed (pagesOf (es.drop i)) ∧
      ∀ E ∈ es.drop i, E.Stored s.mem ∧ Settled f E.off := by
  induction i with
  | zero =>
    exact .inr ⟨_, s₀, f₀, [], [], [], rfl, .nil, List.Perm.refl _, h.start,
      fun E hE => ⟨h.stored E hE, h.settled hE⟩⟩
  | succ i ih =>
    have hlt : i < es.length := by omega
    have hle := h.length_le
    have hdrop : es.drop i = es[i] :: es.drop (i + 1) := List.drop_eq_getElem_cons hlt
    have htake : es.take (i + 1) = es.take i ++ [es[i]] := (List.take_append_getElem hlt).symm
    have hoff : T + i * sizeofFileLogEntry % 2 ^ 32 = es[i].off := by
      rw [h.place i _ (List.getElem?_eq_getElem hlt), show sizeofFileLogEntry = 48 from rfl,
        Nat.mod_eq_of_lt (by omega), Nat.mul_comm]
    rw [Atfs.gcEntries]
    have hruns : (runsOf (es.take (i + 1))).length =
        (runsOf (es.take i)).length + (es[i].validRuns 0).length := by
      rw [htake, runsOf, List.flatMap_append, List.flatMap_singleton, List.length_append,
        List.length_map]
      rfl
    rcases ih (by omega) with ⟨hfail, hnone⟩ | ⟨g₁, s₁, f₁, evs₁, ns₁, freed₁, hrun,
      hmoved, hperm, h₁, hrest⟩
    · refine .inl ⟨?_, fun hlast => hnone (hlast.mono (entryPages_mono (by omega)))⟩
      rw [hfail]
      rfl
    · rw [hrun]
      simp only [bind, Except.bind, hoff]
      have hEi := hrest es[i] (hdrop ▸ List.mem_cons_self)
      rw [hdrop, pagesOf_cons] at h₁
      rcases h₁.gcEntry hEi.1 hEi.2 inode with ⟨hfail, hnone⟩ | ⟨g₂, s₂, f₂, evs₂, ns₂,
        freed₂, hrun₂, hmoved₂, hperm₂, h₂, ts, hstep⟩
      · rw [← hmoved.length_eq, ← hruns] at hnone
        exact .inl ⟨hfail, hnone⟩
      · refine .inr ⟨g₂, s₂, f₂, _, _, freed₂, hrun₂, ?_, ?_, h₂, fun E hE => ?_⟩
        · rw [htake, runsOf, List.flatMap_append, List.flatMap_singleton]
          refine List.rel_append hmoved ?_
          rw [List.forall₂_map_left_iff]
          exact hmoved₂
        · rw [htake, invalidOf, List.flatMap_append, List.flatMap_singleton]
          exact hperm₂.trans (hperm.append_right _)
        · obtain ⟨hstored, hset⟩ := hrest E (hdrop ▸ List.mem_cons_of_mem _ hE)
          have hmem {q : Nat} (hq : q ∈ E.pages) : q ∈ pagesOf (es.drop (i + 1)) :=
            mem_pagesOf.2 ⟨E, hE, hq⟩
          have htouched {q : Nat} (hq : q ∈ es[i].pages ++ freed₁) : q ∈ pagesOf es :=
            (List.mem_append.1 hq).elim (fun hq => h₁.mem_rest (List.mem_append_left _ hq))
              fun hq => (h₁.mem_freed hq).1
          refine ⟨hstored.keeps hset h₁.holds hstep (fun q hq => (h₁.held q (htouched hq)).1)
            (h₁.held.mono fun q hq => h₁.mem_rest (List.mem_append_right _ (hmem hq)))
            fun q hq hc => ?_, hset.step hstep⟩
          rcases List.mem_append.1 hc with hc | hc
          · have hnodup := (List.nodup_append'.1 (List.nodup_append'.1 h₁.nodup').2.1).2.1
            exact (List.nodup_append'.1 hnodup).2.2 hc (hmem hq)
          · exact (h₁.mem_freed hc).2 (List.mem_append_right _ (hmem hq))

/-- The whole loop: every run has become an entry, every invalid page is on the chain. -/
theorem Collectable.collectEntries (h : Collectable A f₀ s₀.mem T es)
    (htail : AtfsInode.logTail.get s₀.mem inode = f₀.tail) :
    (Atfs.collectEntries A inode (T + 4096) s₀ = .error .noPages ∧
      ¬ A.Lasts (entryPages (runsOf es).length) s₀.mem) ∨
    ∃ g s f evs ns freed, Atfs.collectEntries A inode (T + 4096) s₀ = .ok (g, s) ∧
      List.Forall₂ (fun r N => r.1.Moved r.2.1 r.2.2 N) (runsOf es) ns ∧
      freed.Perm (invalidOf es) ∧ Collecting A (pagesOf es) f₀ f s₀ s g ns evs freed [] := by
  rw [Atfs.collectEntries, h.offset, h.objCnt, htail]
  rcases h.gcEntries inode le_rfl with ⟨hfail, hnone⟩ | ⟨g, s, f, evs, ns, freed, hrun,
    hmoved, hperm, hcoll, -⟩
  · rw [List.take_length] at hnone
    exact .inl ⟨hfail, hnone⟩
  · rw [List.take_length] at hmoved hperm
    rw [List.drop_length, pagesOf_nil] at hcoll
    exact .inr ⟨g, s, f, evs, ns, freed, hrun, hmoved, hperm, hcoll⟩

end Entries

/-! ## A page out of the log -/

/-- The log page `P` has been taken out of a log that ends at `f`. -/
structure Detached (A : PageAllocator) (f : Frontier) (m : Memory) (P : LogPage) : Prop where
  holds : f.Holds A m
  rep : P.Rep m
  link : pageLink m P.page = offsetNull
  nodup : P.own.Nodup
  inUse : ∀ q ∈ P.own, q ∉ f.free ∧ q ≠ f.page

theorem Detached.collectable {A : PageAllocator} {f : Frontier} {m : Memory} {P : LogPage}
    (h : Detached A f m P) : Collectable A f m P.page P.entries where
  holds := h.holds
  isPage := h.rep.isPage
  offset := h.rep.offset
  objCnt := congrArg Counters.objCnt h.rep.counters
  inUse := (h.inUse P.page List.mem_cons_self).1
  tail := fun hp => absurd hp (h.inUse P.page List.mem_cons_self).2
  place := h.rep.place
  length_le := h.rep.length_le
  stored := h.rep.stored
  nodup := (List.nodup_cons.1 h.nodup).2
  held := fun q hq => ⟨h.rep.isPage_own q (List.mem_cons_of_mem _ hq),
    h.inUse q (List.mem_cons_of_mem _ hq)⟩

/-! ## Selection -/

section Selected

variable {P : LogPage} {m : Memory}

theorem LogPage.Rep.tally_invalidPages (h : P.Rep m) :
    (tally P.entries).invalidPages = (P.entries.map (·.setBits)).sum :=
  congrArg List.sum (List.map_congr_left h.bits)

theorem LogPage.Rep.selected_iff (h : P.Rep m) : selected m (P.page + 4096) = true ↔
    P.entries.length < 2 * (tally P.entries).invalidCnt ∨
      (tally P.entries).pagesCnt < 2 * (tally P.entries).invalidPages := by
  have hcount := h.counters
  have hobj : ListNode.objCnt.get m (P.page + 4096) = P.entries.length :=
    congrArg Counters.objCnt hcount
  have hcnt := congrArg Counters.invalidCnt hcount
  have hpages := congrArg Counters.pagesCnt hcount
  have hinv := congrArg Counters.invalidPages hcount
  simp only [Atfs.counters] at hcnt hpages hinv
  rw [selected, hobj, hcnt, hpages, hinv, Bool.or_eq_true, decide_eq_true_iff, decide_eq_true_iff]

/-- The test of `start_gc_task`, on the entries of the page. -/
def LogPage.picked (P : LogPage) : Bool :=
  P.entries.length < 2 * (tally P.entries).invalidCnt ||
    (tally P.entries).pagesCnt < 2 * (tally P.entries).invalidPages

theorem LogPage.Rep.selected_eq (h : P.Rep m) : selected m (P.page + 4096) = P.picked := by
  rw [Bool.eq_iff_iff, h.selected_iff, LogPage.picked, Bool.or_eq_true, decide_eq_true_iff,
    decide_eq_true_iff]

/-- Entries that are invalid as a whole have invalid pages. -/
theorem invalidCnt_le_invalidPages {es : List LogEntry} (hpos : ∀ E ∈ es, 1 ≤ E.pages.length) :
    (tally es).invalidCnt ≤ (tally es).invalidPages := by
  simp only [tally]
  induction es with
  | nil => exact le_rfl
  | cons E es ih =>
    have hE := hpos E List.mem_cons_self
    have hes := ih fun E hE => hpos E (List.mem_cons_of_mem _ hE)
    rw [List.countP_cons, List.map_cons, List.sum_cons]
    split_ifs with hall
    · rw [decide_eq_true_iff] at hall
      omega
    · omega

/-- A page that is selected has an invalid page. -/
theorem LogPage.Rep.invalid_pos (h : P.Rep m) (hsel : selected m (P.page + 4096) = true) :
    1 ≤ (tally P.entries).invalidPages := by
  have hle := invalidCnt_le_invalidPages fun E hE => (h.stored E hE).pos
  rcases h.selected_iff.1 hsel with hcnt | hpages
  · omega
  · omega

end Selected

end Atfs
