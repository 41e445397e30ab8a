import Atfs.Gc.Release

/-!
# Every collection makes progress

An entry splits into one run of valid pages more than it has invalid pages, and 85 new entries fit
on a log page. A full page that is selected has at least 43 invalid pages, so the pages that
`get_log_entry` takes for the new entries are fewer than the pages that are handed back.
-/

namespace Atfs

open ByteMemory LinkedChain MarkRuns

/-! ## Pages taken and handed back -/

def Event.taken : Event → Nat
  | .alloc _ pageNum => pageNum
  | _ => 0

def Event.handed : Event → Nat
  | .free _ pageNum => pageNum
  | _ => 0

/-- The pages taken from `alloc_free_pages`. -/
def pagesTaken (trace : List Event) : Nat := (trace.map Event.taken).sum

/-- The pages given to `free_pages`. -/
def pagesHanded (trace : List Event) : Nat := (trace.map Event.handed).sum

/-- Every page taken has become the last page of the log. -/
def Balanced (s s' : State) : Prop :=
  pagesTaken s'.trace + pagesOpened s.trace = pagesTaken s.trace + pagesOpened s'.trace

section Balanced

variable {A : PageAllocator} {s s' s'' : State} {g g' : GcVars} {p p' : GcPos}
  {inode logEntry page e tail tail' i fuel : Nat}

theorem Balanced.refl (s : State) : Balanced s s := rfl

theorem Balanced.trans (h : Balanced s s') (h' : Balanced s' s'') : Balanced s s'' := by
  unfold Balanced at *
  omega

theorem Balanced.of_trace (h : s'.trace = s.trace) : Balanced s s' := by
  rw [Balanced, h]

theorem getLogEntry_balanced (h : getLogEntry A s tail = .ok (e, tail', s')) : Balanced s s' := by
  rw [getLogEntry] at h
  split_ifs at h
  · obtain ⟨⟨pages, s₁⟩, halloc, h⟩ := bind_eq_ok.1 h
    cases h
    rw [PageAllocator.allocFreePages] at halloc
    cases ha : A.alloc s.mem s.currentCpu writeLogPerAlloc with
    | none => simp [ha] at halloc
    | some r =>
      rw [ha] at halloc
      cases halloc
      simp only [Balanced, pagesTaken, pagesOpened, List.map_cons, List.sum_cons, Event.taken,
        Event.opened, writeLogPerAlloc]
      omega
  · cases h
    simp only [Balanced, pagesTaken, pagesOpened, List.map_cons, List.sum_cons, Event.taken,
      Event.opened]
    omega

theorem keepRun_balanced (h : keepRun A inode logEntry p g s = .ok (p', g', s')) :
    Balanced s s' := by
  rw [keepRun] at h
  obtain ⟨⟨newEntry, tail', s₁⟩, hentry, h⟩ := bind_eq_ok.1 h
  cases h
  exact (getLogEntry_balanced hentry).trans (.of_trace rfl)

theorem freeRun_trace (logEntry : Nat) (p : GcPos) (g : GcVars) (s : State) :
    (freeRun logEntry p g s).2.2.trace = s.trace := by
  rw [freeRun]
  cases g.freeHead with
  | none => rfl
  | some k => rfl

theorem gcRound_balanced (h : gcRound A inode logEntry p g s = .ok (p', g', s')) :
    Balanced s s' := by
  have hfree {p₁ : GcPos} {g₁ : GcVars} {s₁ : State}
      (h : (if p₁.j < FileLogEntry.numPages.get s₁.mem logEntry ∧
          entryInvalidPage s₁.mem logEntry p₁.j = true then .ok (freeRun logEntry p₁ g₁ s₁)
        else .ok (p₁, g₁, s₁) : Except Fault _) = .ok (p', g', s')) : Balanced s₁ s' := by
    split_ifs at h
    · have htrace := freeRun_trace logEntry p₁ g₁ s₁
      rw [Except.ok.injEq] at h
      rw [h] at htrace
      exact .of_trace htrace
    · cases h
      exact .refl _
  rw [gcRound] at h
  split_ifs at h
  · obtain ⟨⟨p₁, g₁, s₁⟩, hkeep, h⟩ := bind_eq_ok.1 h
    exact (keepRun_balanced hkeep).trans (hfree h)
  · exact hfree h

theorem gcPages_balanced (h : gcPages A inode logEntry fuel p g s = .ok (g', s')) :
    Balanced s s' := by
  induction fuel generalizing p g s with
  | zero => cases h
  | succ fuel ih =>
    rw [gcPages] at h
    split_ifs at h
    · obtain ⟨⟨p₁, g₁, s₁⟩, hround, h⟩ := bind_eq_ok.1 h
      exact (gcRound_balanced hround).trans (ih h)
    · cases h
      exact .refl _

theorem gcEntries_balanced (h : gcEntries A inode page i g s = .ok (g', s')) : Balanced s s' := by
  induction i generalizing g' s' with
  | zero =>
    cases h
    exact .refl _
  | succ i ih =>
    rw [gcEntries] at h
    obtain ⟨⟨g₁, s₁⟩, hentries, h⟩ := bind_eq_ok.1 h
    exact (ih hentries).trans (gcPages_balanced h)

end Balanced

/-! ## How many pages are opened -/

section Opened

variable {A : PageAllocator} {X : Set Nat} {f f' : Frontier} {m m' : Memory} {es ns : List LogEntry}
  {evs : List Event} {s s' : State}

/-- Appending hands no page back. -/
theorem Appends.handed (h : Appends A X f m f' m' es evs) : pagesHanded evs = 0 := by
  induction h with
  | nil => rfl
  | link _ _ _ _ ih => exact ih
  | entry _ hE ih =>
    rw [pagesHanded] at ih ⊢
    cases hE.grown with
    | inside =>
      rw [List.map_append, List.sum_append, ih]
      rfl
    | newPage =>
      rw [List.map_append, List.sum_append, ih]
      rfl

/-- An entry is cut into one run of valid pages more than it has invalid pages at most. -/
theorem length_runsOf_le (es : List LogEntry) :
    (runsOf es).length ≤ (es.map (·.setBits)).sum + es.length := by
  induction es with
  | nil => exact le_rfl
  | cons E es ih =>
    have hE := length_clearRuns_le E.invalid E.pages.length
    rw [runsOf, List.flatMap_cons, List.length_append, List.length_map, List.map_cons,
      List.sum_cons, List.length_cons]
    have hbits : E.setBits = (List.range E.pages.length).countP E.invalid := rfl
    change (E.validRuns 0).length + (runsOf es).length ≤ _
    rw [LogEntry.validRuns]
    omega

/-- A full page that is selected has at least 43 invalid pages. -/
theorem LogPage.Rep.invalidPages_ge {P : LogPage} (h : P.Rep m) (hfull : P.entries.length = 85)
    (hsel : selected m (P.page + 4096) = true) : 43 ≤ (tally P.entries).invalidPages := by
  have hpos : ∀ E ∈ P.entries, 1 ≤ E.pages.length := fun E hE => (h.stored E hE).pos
  have hle := invalidCnt_le_invalidPages hpos
  have hpages : P.entries.length ≤ (tally P.entries).pagesCnt := by
    have := List.card_nsmul_le_sum (P.entries.map (·.pages.length)) 1 (by simpa using hpos)
    simpa [tally] using this
  rcases h.selected_iff.1 hsel with hcnt | hinv
  · omega
  · omega

theorem Recorded.pagesHanded (h : Recorded evs s s') :
    Atfs.pagesHanded s'.trace = Atfs.pagesHanded evs + Atfs.pagesHanded s.trace ∧
      pagesOpened s'.trace = pagesOpened evs + pagesOpened s.trace := by
  obtain ⟨new, hnew, rfl⟩ := h
  rw [hnew]
  clear hnew
  induction new with
  | nil => simp [Atfs.pagesHanded, pagesOpened]
  | cons ev new ih =>
    simp only [Atfs.pagesHanded, pagesOpened] at ih ⊢
    cases ev <;> simp_all [Event.isAlloc, Event.handed, Event.opened] <;> omega

end Opened

section Progress

variable {A : PageAllocator} {f : Frontier} {s : State} {P : LogPage} {inode : Nat}

/-- Collecting a full page hands back more pages than it takes. It fails only where the pages
run out. -/
theorem gcLogBlock_progress (h : Detached A f s.mem P)
    (htail : AtfsInode.logTail.get s.mem inode = f.tail) (hfull : P.entries.length = 85)
    (hsel : selected s.mem (P.page + 4096) = true) :
    (gcLogBlock A inode (P.page + 4096) s = .error .noPages ∧
      ¬ A.Lasts (entryPages (runsOf P.entries).length) s.mem) ∨
    ∃ s' taken handed, gcLogBlock A inode (P.page + 4096) s = .ok s' ∧
      pagesTaken s'.trace = pagesTaken s.trace + taken ∧
      pagesHanded s'.trace = pagesHanded s.trace + handed ∧ taken < handed := by
  have hinv := h.rep.invalidPages_ge hfull hsel
  rcases h.gcLogBlock htail (by omega) with hfail | ⟨g, s₁, f₁, evs, ns, freed, p, F', s₂,
    hrun, hmoved, -, hc, hlen, -, -, -, hfree, -, -, -, -, hok⟩
  · exact .inl hfail
  · have hbalanced : Balanced s s₁ := by
      rw [collectEntries] at hrun
      exact gcEntries_balanced hrun
    have hhanded := hc.appends.handed
    have hopened := hc.appends.opened hc.holds₀ hc.held₀
    obtain ⟨hhanded', hopened'⟩ := hc.recorded.pagesHanded
    have hruns := length_runsOf_le P.entries
    rw [hmoved.length_eq, hfull, ← h.rep.tally_invalidPages] at hruns
    have htrace : s₂.trace = .free (p + 4096) freed.length :: .free
        (P.page + 4096) 1 :: s₁.trace := by
      rw [← hfree]
      rfl
    refine .inr ⟨_, pagesOpened evs, freed.length + 1, hok, ?_, ?_, ?_⟩
    · unfold Balanced at hbalanced
      have htaken : pagesTaken s₂.trace = pagesTaken s₁.trace := by
        rw [htrace]
        simp [pagesTaken, Event.taken]
      simp only
      omega
    · have : pagesHanded s₂.trace = freed.length + 1 + pagesHanded s₁.trace := by
        rw [htrace]
        simp [pagesHanded, Event.handed]
        omega
      simp only
      omega
    · rcases hopened with hzero | ⟨k, -, -, hk, hsum⟩
      · omega
      · -- the entries fill all pages but the last
        omega

theorem gcLogBlock_progress_sample :
    ∃ s' taken handed,
      gcLogBlock pageAllocator fileInode ((sparsePage 85).page + 4096)
        (sparseDetached 85) = .ok s' ∧
      pagesTaken s'.trace = pagesTaken (sparseDetached 85).trace + taken ∧
      pagesHanded s'.trace = pagesHanded (sparseDetached 85).trace + handed ∧ taken < handed :=
  (gcLogBlock_progress (sparse_detached le_rfl) sparseDetached_logTail (by simp [sparsePage])
    (sparse_selected le_rfl (by omega))).resolve_left fun h => h.2 (sparse_lasts le_rfl)

end Progress

end Atfs
