import Atfs.Gc.Kept

/-!
# The pages of a file in its log

A log says which pages a file has: every valid page of an entry holds one page of the file, whose
number follows from `start_write_off` and the place in the entry. `gc_log_block` splits entries into
runs and frees what is invalid, and leaves this the same.
-/

namespace Atfs

open ByteMemory LinkedChain MarkRuns

/-- The entries on the pages of a log, the oldest first. -/
def entriesIn (Ps : List LogPage) : List LogEntry := Ps.flatMap (·.entries)

/-- The page `q` is valid in one of the entries and holds page number `k` of the file. -/
def LiveAt (es : List LogEntry) (k q : Nat) : Prop :=
  ∃ E ∈ es, ∃ i, E.pages[i]? = some q ∧ E.invalid i = false ∧ E.filePage i = k

section Live

variable {es es' ns : List LogEntry} {E N : LogEntry} {Ps Qs : List LogPage} {L L' : List LogPage}
  {P last last' : LogPage} {evs : List Event} {i j k q : Nat}

@[simp] theorem entriesIn_nil : entriesIn [] = [] := rfl

@[simp] theorem entriesIn_cons : entriesIn (P :: Ps) = P.entries ++ entriesIn Ps :=
    List.flatMap_cons

@[simp] theorem entriesIn_append : entriesIn (Ps ++ Qs) = entriesIn Ps ++ entriesIn Qs :=
  List.flatMap_append

theorem mem_entriesIn : E ∈ entriesIn Ps ↔ ∃ P ∈ Ps, E ∈ P.entries := List.mem_flatMap

theorem mem_pagesOf_entriesIn : q ∈ pagesOf (entriesIn Ps) ↔ ∃ P ∈ Ps, q ∈ pagesOf P.entries := by
  rw [entriesIn, pagesOf, List.flatMap_assoc, List.mem_flatMap]
  rfl

/-- An entry is appended behind all others. -/
theorem Extends.entriesIn (h : Extends L last E L' last' evs) :
    Atfs.entriesIn (L' ++ [last']) = Atfs.entriesIn (L ++ [last]) ++ [E] := by
  rcases h with ⟨rfl, rfl, -⟩ | ⟨rfl, rfl, -⟩ <;> simp

theorem LiveAt.mono (h : LiveAt es k q) (hsub : es ⊆ es') : LiveAt es' k q := by
  obtain ⟨E, hE, h⟩ := h
  exact ⟨E, hsub hE, h⟩

theorem liveAt_congr (h : ∀ E, E ∈ es ↔ E ∈ es') : LiveAt es k q ↔ LiveAt es' k q :=
  ⟨fun hlive => hlive.mono fun E hE => (h E).1 hE, fun hlive => hlive.mono fun E hE => (h E).2 hE⟩

@[simp] theorem liveAt_nil : ¬ LiveAt [] k q := fun ⟨_, hE, _⟩ => absurd hE List.not_mem_nil

theorem liveAt_append : LiveAt (es ++ es') k q ↔ LiveAt es k q ∨ LiveAt es' k q := by
  simp only [LiveAt, List.mem_append, or_and_right, exists_or]

theorem LiveAt.mem_pagesOf (h : LiveAt es k q) : q ∈ pagesOf es := by
  obtain ⟨E, hE, i, hq, -⟩ := h
  exact Atfs.mem_pagesOf.2 ⟨E, hE, List.mem_of_getElem? hq⟩

/-- A page moved to a new entry holds the same page of the file, wherever the entry starts in it. -/
theorem LogEntry.Moved.filePage (h : E.Moved k j N) (hlt : E.startWriteOff < 2 ^ 64) :
    N.filePage i = E.filePage (k + i) := by
  rw [LogEntry.filePage, LogEntry.filePage, h.startWriteOff, and_pageMask hlt]
  simp only [addU64, pageSize_eq]
  omega

theorem LogEntry.Moved.getElem? (h : E.Moved k j N) :
    N.pages[i]? = if k + i < j then E.pages[k + i]? else none := by
  rw [h.pages, LogEntry.cut, List.getElem?_drop, List.getElem?_take]

/-- The runs of valid pages, as entries of their own, say the same of the file. -/
theorem liveAt_moved (h : List.Forall₂ (fun r N => r.1.Moved r.2.1 r.2.2 N) (runsOf es) ns)
    (hlt : ∀ E ∈ es, E.startWriteOff < 2 ^ 64) : LiveAt ns k q ↔ LiveAt es k q := by
  constructor
  · rintro ⟨N, hN, i, hq, -, rfl⟩
    obtain ⟨E, hE, ⟨a, b⟩, hr, hmoved⟩ := mem_runsOf_of_moved h hN
    have hrun := (mem_clearRuns.1 hr).2
    rw [hmoved.getElem?] at hq
    split_ifs at hq with hb
    exact ⟨E, hE, a + i, hq, hrun.clear _ (Nat.le_add_right _ _) hb,
      (hmoved.filePage (hlt E hE)).symm⟩
  · rintro ⟨E, hE, i, hq, hbit, rfl⟩
    obtain ⟨hi, -⟩ := List.getElem?_eq_some_iff.1 hq
    obtain ⟨a, b, hrun, ha, hb⟩ := exists_clearRun hi hbit
    obtain ⟨n, hn, hr⟩ := List.getElem_of_mem (mem_runsOf.2 ⟨hE, hrun⟩)
    have hn' : n < ns.length := h.length_eq ▸ hn
    have hmoved := h.get hn hn'
    simp only [List.get_eq_getElem, hr] at hmoved
    refine ⟨ns[n], List.getElem_mem hn', i - a, ?_, ?_, ?_⟩
    · rw [hmoved.getElem?, Nat.add_sub_cancel' ha, if_pos hb, hq]
    · rw [LogEntry.invalid, hmoved.valid.2, Nat.zero_testBit]
    · rw [hmoved.filePage (hlt E hE), Nat.add_sub_cancel' ha]

end Live

/-! ## What the collection keeps -/

/-- From `m` to `m'` the entries `es` of the log of an inode have become `es'`, and the file is the
same: the pages it has, their bytes, and the words of the inode but for the ends of its log. -/
structure FileKept (inode : Nat) (es es' : List LogEntry) (m m' : Memory) : Prop where
  live : ∀ k q, LiveAt es' k q ↔ LiveAt es k q
  body : ∀ k q, LiveAt es' k q → Set.EqOn m' m (bodyBytes q)
  word : ∀ g : Field 216, g.off + g.size ≤ 56 ∨ 72 ≤ g.off → g.get m' inode = g.get m inode

section Kept

variable {inode : Nat} {es es' es'' : List LogEntry} {m m' m'' : Memory}

theorem FileKept.refl (inode : Nat) (es : List LogEntry) (m : Memory) : FileKept inode es es m m :=
  ⟨fun _ _ => Iff.rfl, fun _ _ _ _ _ => rfl, fun _ _ => rfl⟩

theorem FileKept.trans (h : FileKept inode es es' m m') (h' : FileKept inode es' es'' m' m'') :
    FileKept inode es es'' m m'' where
  live k q := (h'.live k q).trans (h.live k q)
  body k q hq := (h'.body k q hq).trans (h.body k q ((h'.live k q).1 hq))
  word g hg := (h'.word g hg).trans (h.word g hg)

/-- The order of the entries does not matter. -/
theorem FileKept.congr {ds ds' : List LogEntry} (h : FileKept inode es es' m m')
    (hes : ∀ E, E ∈ es ↔ E ∈ ds) (hes' : ∀ E, E ∈ es' ↔ E ∈ ds') : FileKept inode ds ds' m m' where
  live k q := ((liveAt_congr hes').symm.trans (h.live k q)).trans (liveAt_congr hes)
  body k q hq := h.body k q ((liveAt_congr hes').2 hq)
  word := h.word

end Kept

end Atfs
