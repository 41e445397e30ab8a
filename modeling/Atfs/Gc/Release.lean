import Atfs.Gc.Kept

/-!
# Freeing a log page

`start_gc_task` takes a log page out of the chain, and `gc_log_block` hands it back together with
the chain of the invalid pages. A page that the test of `start_gc_task` selects has an invalid page,
so this chain is never empty.
-/

namespace Atfs

open ByteMemory LinkedChain MarkRuns

/-! ## The two calls of `free_pages` -/

/-- What `free_pages` does to a chain of pages in use. -/
theorem PageAllocator.freePages_spec {A : PageAllocator} {F : Set Nat} {s : State} {p : Nat}
    {l : List Nat} (hF : A.Rep s.mem F) (hl : PageChain s.mem p l) (hne : l ≠ [])
    (huse : ∀ q ∈ l, q ∉ F) :
    ∃ F', A.Rep (A.freePages s (p + 4096) l.length).mem F' ∧ (∀ q ∈ F', q ∈ F ∨ q ∈ l) ∧
      ChangesOnly (allocatorBytes (F ∪ {q | q ∈ l})) s.mem
      (A.freePages s (p + 4096) l.length).mem :=
  A.free_spec hF hl hne huse

section Release

variable {A : PageAllocator} {f f₁ : Frontier} {s s₁ : State} {P : LogPage} {g : GcVars}
  {ns : List LogEntry} {evs : List Event} {freed : List Nat} {inode : Nat}

/-- Nothing is written to the log page while its entries are collected. -/
theorem Detached.keeps (h : Detached A f s.mem P)
    (hc : Collecting A (pagesOf P.entries) f f₁ s s₁ g ns evs freed []) :
    Set.EqOn s₁.mem s.mem (pageBytes P.page) ∧ P.page ∉ f₁.free ∧ P.page ≠ f₁.page := by
  obtain ⟨ts, hstep⟩ := hc.logStep
  have hheld : Held f {q | q = P.page} := by
    rintro q rfl
    exact ⟨h.rep.isPage, h.inUse P.page List.mem_cons_self⟩
  have hapart := (List.nodup_cons.1 h.nodup).1
  exact ⟨hheld.keeps hc.holds₀ hstep (fun q hq => (hc.held₀ q hq).1) rfl hapart,
    (hheld.step hstep P.page rfl).2⟩

/-- The log page and the invalid pages are handed back; the chain of the latter is intact when
`free_pages` gets it. -/
theorem Detached.release (h : Detached A f s.mem P)
    (hc : Collecting A (pagesOf P.entries) f f₁ s s₁ g ns evs freed []) (hne : freed ≠ []) :
    ∃ p F', p ∈ freed ∧ g.freeHead = some (p + 4096) ∧
      PageChain (A.freePages s₁ (P.page + 4096) 1).mem p freed ∧
      A.Rep (A.freePages (A.freePages s₁ (P.page + 4096) 1) (p + 4096) g.freeNums).mem F' ∧
      (∀ q ∈ F', q ∈ f₁.free ∨ q ∈ P.page :: freed) ∧
      ChangesOnly (allocatorBytes (f₁.free ∪ {q | q ∈ P.page :: freed})) s₁.mem
        (A.freePages (A.freePages s₁ (P.page + 4096) 1) (p + 4096) g.freeNums).mem ∧
      ∀ n, A.Lasts n s₁.mem →
        A.Lasts n (A.freePages (A.freePages s₁ (P.page + 4096) 1) (p + 4096) g.freeNums).mem := by
  obtain ⟨hkeep, hPfree, -⟩ := h.keeps hc
  have hP := h.rep.isPage
  have hchain : PageChain s₁.mem P.page [P.page] := by
    refine ⟨⟨rfl, ?_⟩, List.nodup_singleton _, fun q hq => ?_, fun q hq => ?_⟩
    · refine (hP.pageLink_congr (hkeep.mono fun a ha => ?_)).trans h.link
      rw [Set.mem_Ico] at ha
      rw [mem_pageBytes]
      omega
    · exact List.mem_singleton.1 hq ▸ hP
    · obtain rfl := List.mem_singleton.1 hq
      refine (Field.get_congr fun a ha => hkeep ?_).trans h.rep.offset
      simp only [Field.bytes, ListNode.offset_off, ListNode.offset_size, Set.mem_Ico] at ha
      rw [mem_pageBytes]
      omega
  obtain ⟨F₁, hrep₁, hsub₁, hframe₁⟩ := PageAllocator.freePages_spec hc.holds.rep hchain
    (List.cons_ne_nil _ _) fun q hq => List.mem_singleton.1 hq ▸ hPfree
  have hapart := (List.nodup_cons.1 h.nodup).1
  have hfreed : ∀ q ∈ freed, IsPage q ∧ q ∉ f₁.free ∪ {q | q ∈ [P.page]} := by
    intro q hq
    have hmem := (hc.mem_freed hq).1
    obtain ⟨hpage, hfree, -⟩ := hc.held q hmem
    refine ⟨hpage, fun hmem' => ?_⟩
    rcases hmem' with hmem' | hmem'
    · exact hfree hmem'
    · obtain rfl := List.mem_singleton.1 hmem'
      exact hapart hmem
  obtain ⟨k, hk⟩ := Option.ne_none_iff_exists'.1 fun hnone => hne (hc.freeList.empty hnone)
  obtain ⟨-, p, rfl, hlist⟩ := hc.freeList.chain k hk
  have hpages : ∀ q ∈ f₁.free ∪ {q | q ∈ [P.page]}, IsPage q := by
    rintro q (hq | hq)
    · exact A.rep_page hc.holds.rep q hq
    · obtain rfl := List.mem_singleton.1 hq
      exact hP
  have hlist₁ : PageChain (A.freePages s₁ (P.page + 4096) 1).mem p freed := by
    refine hlist.congr fun q hq a ha => hframe₁ a ?_
    refine not_mem_allocatorBytes hpages (hfreed q hq).1 (hfreed q hq).2 ?_
    rw [Set.mem_Ico] at ha
    rw [mem_pageBytes]
    omega
  obtain ⟨F₂, hrep₂, hsub₂, hframe₂⟩ := PageAllocator.freePages_spec hrep₁ hlist₁ hne
    fun q hq hc => (hfreed q hq).2 (hsub₁ q hc)
  have hlasts (n : Nat) (hlast : A.Lasts n s₁.mem) :
      A.Lasts n (A.freePages (A.freePages s₁ (P.page + 4096) 1) (p + 4096) freed.length).mem := by
    have hlast₁ := hlast.freePages hc.holds.rep hchain (List.cons_ne_nil _ _)
      fun q hq => List.mem_singleton.1 hq ▸ hPfree
    exact hlast₁.freePages hrep₁ hlist₁ hne fun q hq hc => (hfreed q hq).2 (hsub₁ q hc)
  rw [← hc.freeList.nums] at hrep₂ hframe₂ hlasts
  refine ⟨p, F₂, hlist.head_mem (List.length_pos_of_ne_nil hne), hk, hlist₁, hrep₂,
    fun q hq => ?_, ?_, hlasts⟩
  · rcases hsub₂ q hq with hq | hq
    · refine (hsub₁ q hq).imp_right fun hq => ?_
      rw [List.mem_singleton.1 hq]
      exact List.mem_cons_self
    · exact .inr (List.mem_cons_of_mem _ hq)
  · refine (hframe₁.mono (allocatorBytes_mono ?_)).trans (hframe₂.mono (allocatorBytes_mono ?_))
    · rintro q (hq | hq)
      · exact .inl hq
      · obtain rfl := List.mem_singleton.1 hq
        exact .inr List.mem_cons_self
    · rintro q (hq | hq)
      · rcases hsub₁ q hq with hq | hq
        · exact .inl hq
        · obtain rfl := List.mem_singleton.1 hq
          exact .inr List.mem_cons_self
      · exact .inr (List.mem_cons_of_mem _ hq)

/-- `gc_log_block` behind its loop. -/
theorem gcLogBlock_eq (A : PageAllocator) (inode pageNode : Nat) (s : State) :
    gcLogBlock A inode pageNode s = (do
      let (g, s) ← collectEntries A inode pageNode s
      let s := A.freePages s pageNode 1
      match g.freeHead with
      | none => .error .nullPointer
      | some freeHead =>
        let s := A.freePages s freeHead g.freeNums
        .ok { s with mem := updateInodeTail s.mem inode g.logTail }) := rfl

/-- `gc_log_block` on a page with an invalid page: what its loop does and what it hands back. -/
theorem Detached.gcLogBlock (h : Detached A f s.mem P)
    (htail : AtfsInode.logTail.get s.mem inode = f.tail)
    (hpos : 1 ≤ (tally P.entries).invalidPages) :
    (Atfs.gcLogBlock A inode (P.page + 4096) s = .error .noPages ∧
      ¬ A.Lasts (entryPages (runsOf P.entries).length) s.mem) ∨
    ∃ g s₁ f₁ evs ns freed p F' s₂, collectEntries A inode (P.page + 4096) s = .ok (g, s₁) ∧
      List.Forall₂ (fun r N => r.1.Moved r.2.1 r.2.2 N) (runsOf P.entries) ns ∧
      freed.Perm (invalidOf P.entries) ∧
      Collecting A (pagesOf P.entries) f f₁ s s₁ g ns evs freed [] ∧
      freed.length = (tally P.entries).invalidPages ∧
      p ∈ freed ∧ g.freeHead = some (p + 4096) ∧
      PageChain (A.freePages s₁ (P.page + 4096) 1).mem p freed ∧
      A.freePages (A.freePages s₁ (P.page + 4096) 1) (p + 4096) freed.length = s₂ ∧
      A.Rep s₂.mem F' ∧ (∀ q ∈ F', q ∈ f₁.free ∨ q ∈ P.page :: freed) ∧
      ChangesOnly (allocatorBytes (f₁.free ∪ {q | q ∈ P.page :: freed})) s₁.mem s₂.mem ∧
      (∀ n, A.Lasts (n + entryPages (runsOf P.entries).length) s.mem → A.Lasts n s₂.mem) ∧
      Atfs.gcLogBlock A inode (P.page + 4096) s =
        .ok { s₂ with mem := updateInodeTail s₂.mem inode f₁.tail } := by
  rw [gcLogBlock_eq]
  rcases h.collectable.collectEntries htail with hfail | ⟨g, s₁, f₁, evs, ns, freed, hrun,
    hmoved, hfreed, hc⟩
  · refine .inl ⟨?_, hfail.2⟩
    rw [hfail.1]
    rfl
  · have hlen : freed.length = (tally P.entries).invalidPages := by
      rw [hfreed.length_eq, length_invalidOf, h.rep.tally_invalidPages]
    have hne : freed ≠ [] := List.length_pos_iff.1 (hlen ▸ hpos)
    obtain ⟨p, F', hp, hhead, hlist, hrep, hsub, hframe, hlasts⟩ := h.release hc hne
    rw [hc.freeList.nums] at hrep hframe hlasts
    have hopened := hc.appends.pagesOpened_le hc.holds₀ hc.held₀
    rw [← hmoved.length_eq] at hopened
    refine .inr ⟨g, s₁, f₁, evs, ns, freed, p, F', _, hrun, hmoved, hfreed, hc, hlen, hp,
      hhead, hlist, rfl, hrep, hsub, hframe, fun n hlast => hlasts n (hc.lasts n ?_), ?_⟩
    · exact hlast.mono (Nat.add_le_add_left hopened n)
    rw [hrun]
    simp only [bind, Except.bind, hhead]
    rw [hc.freeList.nums, hc.tail]

/-- The collector never frees an empty chain. It fails only where the pages run out. -/
theorem gcLogBlock_freeHead (h : Detached A f s.mem P)
    (htail : AtfsInode.logTail.get s.mem inode = f.tail)
    (hsel : selected s.mem (P.page + 4096) = true) :
    (Atfs.gcLogBlock A inode (P.page + 4096) s = .error .noPages ∧
      ¬ A.Lasts (entryPages (runsOf P.entries).length) s.mem) ∨
    ∃ g s₁ s' p freed, collectEntries A inode (P.page + 4096) s = .ok (g, s₁) ∧
      g.freeHead = some (p + 4096) ∧
      g.freeNums = ListNode.invalidPages.get s.mem (P.page + 4096) ∧ 1 ≤ g.freeNums ∧
      PageChain s₁.mem p freed ∧ PageChain (A.freePages s₁ (P.page + 4096) 1).mem p freed ∧
      freed.length = g.freeNums ∧ Atfs.gcLogBlock A inode (P.page + 4096) s = .ok s' ∧
      s'.trace = .free (p + 4096) g.freeNums :: .free (P.page + 4096) 1 :: s₁.trace := by
  have hpos := h.rep.invalid_pos hsel
  have hinv : ListNode.invalidPages.get s.mem (P.page + 4096) = (tally P.entries).invalidPages :=
    congrArg Counters.invalidPages h.rep.counters
  rcases h.gcLogBlock htail hpos with hfail | ⟨g, s₁, f₁, evs, ns, freed, p, F', s₂,
    hrun, -, -, hc, hlen, -, hhead, hlist, hfree, -, -, -, -, hok⟩
  · exact .inl hfail
  · have hnums := hc.freeList.nums
    obtain ⟨-, p', hp', hchain⟩ := hc.freeList.chain _ hhead
    obtain rfl := Nat.add_right_cancel hp'
    refine .inr ⟨g, s₁, _, p, freed, hrun, hhead, ?_, ?_, hchain, hlist, hnums.symm, hok, ?_⟩
    · rw [hnums, hlen, hinv]
    · rw [hnums, hlen]
      exact hpos
    · rw [hnums, ← hfree]
      rfl

theorem gcLogBlock_freeHead_sample :
    ∃ g s₁ s' p freed,
      collectEntries pageAllocator fileInode ((sparsePage 85).page + 4096) (sparseDetached 85) =
        .ok (g, s₁) ∧
      g.freeHead = some (p + 4096) ∧
      g.freeNums = ListNode.invalidPages.get (sparseDetached 85).mem ((sparsePage 85).page + 4096) ∧
      1 ≤ g.freeNums ∧ PageChain s₁.mem p freed ∧
      PageChain (pageAllocator.freePages s₁ ((sparsePage 85).page + 4096) 1).mem p freed ∧
      freed.length = g.freeNums ∧
      Atfs.gcLogBlock pageAllocator fileInode ((sparsePage 85).page + 4096) (sparseDetached 85) =
        .ok s' ∧
      s'.trace = .free (p + 4096) g.freeNums :: .free ((sparsePage 85).page + 4096) 1 :: s₁.trace :=
  (gcLogBlock_freeHead (sparse_detached le_rfl) sparseDetached_logTail
    (sparse_selected le_rfl (by omega))).resolve_left fun h => h.2 (sparse_lasts le_rfl)

end Release

end Atfs
