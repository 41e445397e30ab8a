import Atfs.Io.Rounds

/-!
# A whole write

The rounds of `nvmio_write` put together: the entries appended, the pages they own and
what these hold, and the index after `update_radixtree` has entered them.
-/

namespace Atfs

open ByteMemory LinkedChain

/-- The entries of the chunks that a write with the variables `v` is split into. -/
inductive Chunks : WriteVars → List LogEntry → Prop
  | done {v : WriteVars} (h : v.pageNums = 0) : Chunks v []
  | chunk {v : WriteVars} {E : LogEntry} {es : List LogEntry} (userBuf logTail : Nat)
      (pos : 0 < v.pageNums) (length : E.pages.length = v.allocNum)
      (startWriteOff : E.startWriteOff = v.startPage)
      (endWriteOff : E.endWriteOff = addU64 v.startPage (chunkSize v v.allocNum))
      (fileSize : E.fileSize = (v.next userBuf logTail).fileSize)
      (valid : E.invalidPages = 0 ∧ E.bitmap = 0)
      (rest : Chunks (v.next userBuf logTail) es) : Chunks v (E :: es)

/-- From `m` to `m'` a write with the variables `v` has appended the entries `es`. -/
structure WriteRun (A : PageAllocator) (D : Set Nat) (buf : Memory) (index : Nat → Nat)
    (f f' : Frontier) (v : WriteVars) (m m' : Memory) (es : List LogEntry)
    (ts : List Nat) : Prop where
  step : LogStep A D f f' ts m m'
  slots : ts.map (nextSlot m') = es.map (·.off)
  stored : ∀ E ∈ es, E.Stored m'
  /-- Every entry stands in the last page behind the tail, or in a new page. -/
  place : ∀ E ∈ es, ∃ T, IsPage T ∧ (T = f.page ∧ f.tail ≤ E.off ∨ T ∈ f.free) ∧ T ∉ f'.free ∧
    T ∉ pagesOf es ∧ T ≤ E.off ∧ E.off + 48 ≤ T + 4096
  fresh : ∀ q ∈ pagesOf es, q ∈ f.free ∧ q ∉ f'.free ∧ q ≠ f'.page
  nodup : (pagesOf es).Nodup
  backPointer : ∀ E ∈ es, ∀ q ∈ E.pages, ListNode.logEntry.get m' (q + 4096) = E.off
  written : Written buf index v.startPage v.offset v.totalSize v.userBuf (footprint f f')
    (pagesOf es) m m'
  length : (pagesOf es).length = v.pageNums
  chunks : Chunks v es

section Compose

variable {A : PageAllocator} {buf : Memory} {index : Nat → Nat} {f f' f₁ : Frontier}
  {v v₁ : WriteVars} {m m₁ m' : Memory} {E : LogEntry} {es : List LogEntry} {ts : List Nat}

theorem Mapped.step {D : Set Nat} (h : Mapped index f) (hs : LogStep A D f f' ts m m') :
    Mapped index f' := by
  intro k hk
  obtain ⟨hp, hpF, hpT⟩ := h k hk
  refine ⟨hp, fun hc => hpF (hs.sub hc), fun hc => ?_⟩
  rcases hs.moved with ⟨hT, -⟩ | hT
  · exact hpT (hc.trans hT)
  · exact hpF (hc ▸ hT)

/-- The page the entry of a round stands in. -/
theorem ChunkStep.entry_place (h : ChunkStep A buf index f f' v v₁ m m' E) (hf : f.Holds A m) :
    (f'.page = f.page ∧ f.tail ≤ E.off ∨ f'.page ∈ f.free) ∧ f'.page ≤ E.off ∧
      E.off + 48 ≤ f'.page + 4096 := by
  have h1 := h.step.holds.tail_le
  have h2 := hf.le_tail
  have h3 := h.tail
  rcases h.place with ⟨hp, ht⟩ | ⟨hp, ht⟩
  · exact ⟨.inl ⟨hp, ht.ge⟩, by omega, by omega⟩
  · exact ⟨.inr hp, ht.ge, by omega⟩

/-- The last round of a write. -/
theorem ChunkStep.single (h : ChunkStep A buf index f f' v v₁ m m' E) (hf : f.Holds A m)
    (hv : v.Valid) (hlast : v.pageNums ≤ 64) : WriteRun A ∅ buf index f f' v m m' [E] [f.tail] := by
  have hn := v.allocNum_eq
  have hw := hv.chunkSize_last hlast
  obtain ⟨hplace, hle⟩ := h.entry_place hf
  refine ⟨h.step, by simp [h.slot], by simpa using h.stored, ?_,
    by simpa [pagesOf] using h.fresh, by simpa [pagesOf] using h.stored.chain.nodup,
    by simpa using h.backPointer, ?_, ?_, ?_⟩
  · intro E' hE'
    obtain rfl := List.mem_singleton.1 hE'
    exact ⟨f'.page, h.step.holds.isPage, hplace, h.step.holds.notFree,
      fun hc => (h.fresh _ (by simpa [pagesOf] using hc)).2.2 rfl, hle⟩
  · have := h.written
    rw [hw] at this
    simpa [pagesOf] using this
  · have := h.length
    simp only [pagesOf_cons, pagesOf_nil, List.append_nil]
    omega
  · refine .chunk v₁.userBuf f'.tail (by have := hv.pageNums; have := hv.pos; omega) h.length
      h.startWriteOff h.endWriteOff
      (by rw [← h.next]; exact h.fileSize) h.valid (.done ?_)
    rw [WriteVars.next]
    simp only
    omega

/-- The bytes of a full chunk and of the rest of the write. -/
theorem Written.append {o w w' u : Nat} {start : Nat} {V W : Set Nat} {l l' : List Nat}
    (h : Written buf index start o w u V l m m₁)
    (h' : Written buf index (start + 4096 * 64) 0 w' (u + w) W l' m₁ m')
    (hl : l.length = 64) (hpos : 1 ≤ l'.length) (hfull : o + w = 4096 * 64) (ho : o < 4096)
    {X : Set Nat} (hV : ChangesOnly X m m₁) (hWX : W ⊆ X)
    (hkeep : ∀ q ∈ l, ∀ b < 4096, m' (q + b) = m₁ (q + b))
    (hstale : ∀ q ∈ l', ∀ b < 4096, m₁ (q + b) = m (q + b)) :
    Written buf index start o (w + w') u X (l ++ l') m m' := by
  have hsplit : ∀ i q, (l ++ l')[i]? = some q → i < 64 ∧ l[i]? = some q ∨
      64 ≤ i ∧ l'[i - 64]? = some q := by
    intro i q hq
    rw [List.getElem?_append] at hq
    split_ifs at hq with hi
    · exact .inl ⟨by omega, hq⟩
    · exact .inr ⟨by omega, by rwa [hl] at hq⟩
  refine ⟨?_, ?_, ?_⟩
  · intro i q hq b hb h1 h2
    rcases hsplit i q hq with ⟨hi, hq⟩ | ⟨hi, hq⟩
    · rw [hkeep q (List.mem_of_getElem? hq) b hb]
      exact h.inside i q hq b hb h1 (by omega)
    · rw [h'.inside (i - 64) q hq b hb (by omega) (by omega)]
      congr 1
      omega
  · intro q hq b hb
    rcases hsplit 0 q hq with ⟨-, hq⟩ | ⟨hi, -⟩
    · rw [hkeep q (List.mem_of_getElem? hq) b (by omega)]
      exact h.front q hq b hb
    · omega
  · obtain ⟨M, hM, hback⟩ := h'.back
    refine ⟨M, hV.trans (hM.mono hWX), ?_⟩
    intro q hq b hb hbehind
    have hlen : (l ++ l').length = 64 + l'.length := by rw [List.length_append, hl]
    rw [hlen] at hq hbehind ⊢
    rcases hsplit _ q hq with ⟨hi, -⟩ | ⟨-, hq⟩
    · omega
    · rw [show 64 + l'.length - 1 - 64 = l'.length - 1 by omega] at hq
      rw [hback q hq b hb (by omega), hstale q (List.mem_of_getElem? hq) b hb,
        show start + 4096 * 64 + 4096 * (l'.length - 1) = start +
        4096 * (64 + l'.length - 1) by omega, show (0 + w') % 4096 = (o + (w + w')) % 4096 by omega,
        show (64 + l'.length) % 64 = l'.length % 64 by omega]

/-- A round of a longer write and the rounds behind it. -/
theorem ChunkStep.cons (h : ChunkStep A buf index f f₁ v v₁ m m₁ E) (hf : f.Holds A m)
    (hv : v.Valid) (hmore : 64 < v.pageNums) (hrun : WriteRun A ∅ buf index f₁ f' v₁ m₁ m' es ts) :
    WriteRun A ∅ buf index f f' v m m' (E :: es) (f.tail :: ts) := by
  have hn : v.allocNum = 64 := by
    rw [v.allocNum_eq]
    omega
  have hfull := hv.chunkSize_full hmore
  have hsub := hrun.step.sub
  have step : LogStep A ∅ f f' (f.tail :: ts) m m' := h.step.trans hrun.step (by simp)
  have hpage : ∀ q ∈ E.pages, IsPage q := h.stored.chain.page
  have hkeep : ∀ q ∈ E.pages, ∀ a ∈ pageBytes q, m' a = m₁ a := fun q hq a ha =>
    hrun.step.keeps h.step.holds (hpage q hq) (h.fresh q hq).2.1 (h.fresh q hq).2.2 ha
      (Set.notMem_empty a)
  obtain ⟨hplace, hle⟩ := h.entry_place hf
  refine ⟨step, ?_, ?_, ?_, ?_, ?_, ?_, ?_, ?_, ?_⟩
  · have hend : slotEnd m' f.tail = f₁.tail := Segment.start_eq step.path.2 hrun.step.path
    rw [slotEnd_eq, h.tail] at hend
    rw [List.map_cons, List.map_cons, hrun.slots, show nextSlot m' f.tail = E.off by omega]
  · intro E' hE'
    rcases List.mem_cons.1 hE' with rfl | hE'
    · exact h.stored.step hrun.step h.step.holds ⟨hle.1, h.tail.ge⟩
        (fun q hq => (h.fresh q hq).2) (by simp)
    · exact hrun.stored E' hE'
  · intro E' hE'
    rcases List.mem_cons.1 hE' with rfl | hE'
    · refine ⟨f₁.page, h.step.holds.isPage, hplace, fun hc => h.step.holds.notFree (hsub hc),
        fun hc => ?_, hle⟩
      rcases List.mem_append.1 (pagesOf_cons _ _ ▸ hc) with hc | hc
      · exact (h.fresh _ hc).2.2 rfl
      · exact h.step.holds.notFree (hrun.fresh _ hc).1
    · obtain ⟨T, hT, horig, hfree, hdata, hrest⟩ := hrun.place E' hE'
      refine ⟨T, hT, ?_, hfree, fun hc => ?_, hrest⟩
      · rcases horig with ⟨hp, ht⟩ | hp
        · rcases h.step.moved with ⟨hp', ht'⟩ | hp'
          · exact .inl ⟨hp.trans hp', ht'.trans ht⟩
          · exact .inr (hp ▸ hp')
        · exact .inr (h.step.sub hp)
      · rcases List.mem_append.1 (pagesOf_cons _ _ ▸ hc) with hc | hc
        · rcases horig with ⟨hp, -⟩ | hp
          · exact (h.fresh _ hc).2.2 hp
          · exact (h.fresh _ hc).2.1 hp
        · exact hdata hc
  · intro q hq
    rw [pagesOf_cons, List.mem_append] at hq
    rcases hq with hq | hq
    · obtain ⟨hqF, hqF₁, hqT⟩ := h.fresh q hq
      refine ⟨hqF, fun hc => hqF₁ (hsub hc), ?_⟩
      rintro rfl
      rcases hrun.step.moved with ⟨hT, -⟩ | hT
      · exact hqT hT
      · exact hqF₁ hT
    · obtain ⟨hqF, hrest⟩ := hrun.fresh q hq
      exact ⟨h.step.sub hqF, hrest⟩
  · rw [pagesOf_cons]
    refine h.stored.chain.nodup.append hrun.nodup fun q hq hq' => ?_
    exact (h.fresh q hq).2.1 (hrun.fresh q hq').1
  · intro E' hE' q hq
    rcases List.mem_cons.1 hE' with rfl | hE'
    · refine (Field.get_congr fun a ha => hkeep q hq a ?_).trans (h.backPointer q hq)
      simp only [Field.bytes, ListNode.logEntry_off, ListNode.logEntry_size, Set.mem_Ico] at ha
      rw [mem_pageBytes]
      omega
    · exact hrun.backPointer E' hE' q hq
  · have hlen := h.length
    have hrest := hrun.written
    have hlen' := hrun.length
    have htotal : v₁.totalSize = v.totalSize - chunkSize v v.allocNum := by rw [h.next]; rfl
    have hnums : v₁.pageNums = v.pageNums - v.allocNum := by rw [h.next]; rfl
    have hoff : v₁.offset = 0 := by rw [h.next]; rfl
    have hstart : v₁.startPage = v.startPage + 4096 * 64 := by
      rw [h.next]
      exact hv.next_startPage hmore _ _
    rw [hoff, hstart, h.userBuf hmore] at hrest
    have happ := h.written.append hrest (by omega) (by omega) (by omega) hv.offset_lt
      (h.step.frame.mono (by
        rw [Set.union_empty]
        exact Set.subset_union_left.trans (footprint_trans h.step.sub hrun.step.sub h.step.moved
          h.step.holds.notFree h.step.holds.le_tail)))
      (Set.subset_union_right.trans (footprint_trans h.step.sub hrun.step.sub h.step.moved
          h.step.holds.notFree h.step.holds.le_tail))
      (fun q hq b hb => hkeep q hq _ (by rw [mem_pageBytes]; omega))
      (fun q hq b hb => h.step.keeps_free hf (hrun.fresh q hq).1 (by rw [mem_pageBytes]; omega)
        (by rw [mem_linkBytes]; omega) (Set.notMem_empty _))
    rwa [show chunkSize v v.allocNum + v₁.totalSize = v.totalSize by omega] at happ
  · have hlen := h.length
    have hlen' := hrun.length
    have hnums : v₁.pageNums = v.pageNums - v.allocNum := by rw [h.next]; rfl
    rw [pagesOf_cons, List.length_append]
    omega
  · refine .chunk v₁.userBuf f₁.tail (by omega) h.length h.startWriteOff h.endWriteOff
      (by rw [← h.next]; exact h.fileSize) h.valid ?_
    rw [← h.next]
    exact hrun.chunks

/-- Writing inside a page that the write does not own extends it. -/
theorem WriteRun.write {D W : Set Nat} {m'' : Memory} {p : Nat}
    (h : WriteRun A D buf index f f' v m m' es ts) (hW : ChangesOnly W m' m'') (hp : IsPage p)
    (hpF : p ∉ f.free) (hpT : p ≠ f.page) (hWp : ∀ a ∈ W, a ∈ pageBytes p ∧ a ∉ linkBytes p)
    (ho : v.offset ≤ 4096) :
    WriteRun A (D ∪ W) buf index f f' v m m'' es ts := by
  have hkeep : ∀ q, IsPage q → (q = f.page ∨ q ∈ f.free) → Set.EqOn m'' m' (pageBytes q) := by
    intro q hq horig a ha
    refine hW a fun haW => ?_
    have hne : q ≠ p := by
      rintro rfl
      exact horig.elim hpT hpF
    have := (hWp a haW).1
    have := hq.apart hp hne
    simp only [mem_pageBytes] at *
    omega
  have hpages : ∀ q ∈ pagesOf es, IsPage q := fun q hq => by
    obtain ⟨E, hE, hqE⟩ := mem_pagesOf.1 hq
    exact (h.stored E hE).chain.page q hqE
  have hdata : ∀ q ∈ pagesOf es, Set.EqOn m'' m' (pageBytes q) := fun q hq =>
    hkeep q (hpages q hq) (.inr (h.fresh q hq).1)
  have step : LogStep A (D ∪ W) f f' ts m m'' :=
    (h.step.mono Set.subset_union_left).write_inside hW (fun a ha => .inr (.inr ha)) fun a ha =>
      ⟨p, hp, fun hc => hpF (h.step.sub hc), hWp a ha⟩
  refine { h with step, slots := ?_, stored := ?_, backPointer := ?_, written := ?_ }
  · rw [← h.slots]
    refine List.map_congr_left fun t ht => ?_
    obtain ⟨T, hT, horig, hle, hle', -⟩ := h.step.passed t ht
    refine nextSlot_congr hT ⟨hle, hle'⟩ fun _ => hT.pageLink_congr fun a ha => ?_
    refine hkeep T hT (horig.imp And.left id) ?_
    rw [Set.mem_Ico] at ha
    rw [mem_pageBytes]
    omega
  · intro E hE
    obtain ⟨T, hT, horig, -, -, hle, hle'⟩ := h.place E hE
    refine (h.stored E hE).congr (fun a ha => ?_) fun q hq a ha => ?_
    · refine hkeep T hT (horig.imp And.left id) ?_
      rw [Set.mem_Ico] at ha
      rw [mem_pageBytes]
      omega
    · refine hdata q (mem_pagesOf.2 ⟨E, hE, hq⟩) ?_
      rw [Set.mem_Ico] at ha
      rw [mem_pageBytes]
      omega
  · intro E hE q hq
    refine (Field.get_congr fun a ha => ?_).trans (h.backPointer E hE q hq)
    refine hdata q (mem_pagesOf.2 ⟨E, hE, hq⟩) ?_
    simp only [Field.bytes, ListNode.logEntry_off, ListNode.logEntry_size, Set.mem_Ico] at ha
    rw [mem_pageBytes]
    omega
  · exact h.written.congr ho le_rfl (ChangesOnly.refl _ _) (fun _ _ _ _ => rfl) (fun _ _ _ => rfl)
      fun q hq b hb => hdata q hq (by rw [mem_pageBytes]; omega)

end Compose

/-! ## The loop -/

section Loop

variable {A : PageAllocator} {buf : Memory} {inode fuel : Nat} {f : Frontier}
  {v v' : WriteVars} {s s' : State}

theorem writeChunk_pageNums (h : writeChunk A inode buf v s = .ok (v', s')) :
    v'.pageNums = v.pageNums - v.allocNum := by
  rw [writeChunk] at h
  obtain ⟨⟨node, s₁⟩, -, h⟩ := bind_eq_ok.1 h
  obtain ⟨⟨e, tail', s₂⟩, -, h⟩ := bind_eq_ok.1 h
  simp only [Except.ok.injEq, Prod.mk.injEq] at h
  rw [← h.1]

theorem writeChunk_error {e : Fault} (h : writeChunk A inode buf v s = .error e) :
    e = .noPages := by
  rw [writeChunk] at h
  rcases bind_eq_error.1 h with h | ⟨⟨node, s₁⟩, -, h⟩
  · exact PageAllocator.allocFreePages_error h
  · rcases bind_eq_error.1 h with h | ⟨⟨e', tail', s₂⟩, -, h⟩
    · exact getLogEntry_error h
    · simp at h

/-- The loop ends: every round takes at least one of the remaining pages. -/
theorem writeLoop_error {e : Fault} (h : writeLoop A inode buf fuel v s = .error e)
    (hfuel : v.pageNums < fuel) : e = .noPages := by
  induction fuel generalizing v s with
  | zero => omega
  | succ fuel ih =>
    rw [writeLoop] at h
    split_ifs at h with hpos
    · rcases bind_eq_error.1 h with h | ⟨⟨v₁, s₁⟩, hc, h⟩
      · exact writeChunk_error h
      · refine ih h ?_
        have := writeChunk_pageNums hc
        have := v.allocNum_eq
        omega

/-- The rounds append the entries of the chunks. -/
theorem writeLoop_spec (hf : f.Holds A s.mem) (htail : v.logTail = f.tail) (hv : v.Valid)
    (hmap : Mapped (s.index inode) f) (hsize : v.fileSize < 2 ^ 64)
    (h : writeLoop A inode buf fuel v s = .ok (v', s')) :
    ∃ f' es ts evs, WriteRun A ∅ buf (s.index inode) f f' v s.mem s'.mem es ts ∧
      EntrySteps A f f' s.mem s'.mem es evs ∧ Recorded evs s s' ∧
      List.Forall₂ (RoundOf A buf) es (writeRounds A inode buf fuel v s) ∧
      v'.logTail = f'.tail ∧ s'.index = s.index := by
  induction fuel generalizing v s f with
  | zero => simp [writeLoop] at h
  | succ fuel ih =>
    have hpos : v.pageNums > 0 := by
      have := hv.pageNums
      have := hv.pos
      omega
    rw [writeLoop, if_pos hpos] at h
    obtain ⟨⟨v₁, s₁⟩, hc, h⟩ := bind_eq_ok.1 h
    obtain ⟨f₁, E, hstep, hindex, hround⟩ := writeChunk_visits hf htail hv hmap hsize hc
    have hrounds : writeRounds A inode buf (fuel + 1) v s =
        (v, s) :: writeRounds A inode buf fuel v₁ s₁ := by
      rw [writeRounds, if_pos hpos, hc]
    obtain ⟨_, E₁, evs₁, hentry₁, hrec₁, -, hlen₁, -⟩ := writeChunk_entry hf htail hv.sized hsize hc
    have hentry := hstep.entryStep hf (hlen₁ ▸ hentry₁.grown)
    have htail₁ : v₁.logTail = f₁.tail := by rw [hstep.next]; rfl
    by_cases hmore : 64 < v.pageNums
    · have hv₁ : v₁.Valid := by
        rw [hstep.next]
        exact hv.next hmore _ _
      have hsize₁ : v₁.fileSize < 2 ^ 64 := by
        rw [← hstep.fileSize, ← hstep.stored.words.fileSize]
        exact Field.get_lt _ _ _
      obtain ⟨f', es, ts, evs, hrun, hsteps, hrec, hall, htail', hindex'⟩ :=
        ih hstep.step.holds htail₁ hv₁
        (hindex ▸ hmap.step hstep.step) hsize₁ h
      rw [hindex] at hrun
      exact ⟨f', E :: es, f.tail :: ts, evs ++ evs₁, hstep.cons hf hv hmore hrun,
        .cons hentry hsteps, hrec₁.trans hrec, hrounds ▸ .cons hround hall, htail',
        hindex'.trans hindex⟩
    · -- no pages are left, so the next test ends the loop
      have hzero : v₁.pageNums = 0 := by
        have := writeChunk_pageNums hc
        have := v.allocNum_eq
        omega
      obtain ⟨rfl, rfl⟩ : v₁ = v' ∧ s₁ = s' := by
        cases fuel with
        | zero => simp [writeLoop] at h
        | succ fuel => simpa [writeLoop, hzero] using h
      have hend : writeRounds A inode buf fuel v₁ s₁ = [] := by
        cases fuel with
        | zero => rfl
        | succ fuel => rw [writeRounds, if_neg (by omega)]
      exact ⟨f₁, [E], [f.tail], evs₁, hstep.single hf hv (by omega),
        .cons hentry (.nil hstep.step.holds), hrec₁, hrounds ▸ hend ▸ .cons hround .nil, htail₁,
        hindex⟩

end Loop

/-! ## The index -/

section Index

variable {m : Memory} {idx : Nat → Nat} {key : Nat}

/-- Updating at the keys `a 0, …, a (n - 1)`. -/
theorem foldl_update_apply (a b : Nat → Nat) (idx : Nat → Nat) (n key : Nat)
    (ha : ∀ i < n, ∀ j < n, a i = a j → i = j) :
    (∀ i < n, key = a i → (List.range n).foldl (fun g k => Function.update g (a k) (b k)) idx key =
      b i) ∧
    ((∀ i < n, key ≠ a i) →
      (List.range n).foldl (fun g k => Function.update g (a k) (b k)) idx key = idx key) := by
  induction n with
  | zero => simp
  | succ n ih =>
    obtain ⟨ih₁, ih₂⟩ := ih fun i hi j hj => ha i (by omega) j (by omega)
    rw [List.range_succ, List.foldl_append, List.foldl_cons, List.foldl_nil]
    refine ⟨fun i hi hkey => ?_, fun hkey => ?_⟩
    · by_cases hin : i = n
      · subst hin
        rw [hkey, Function.update_self]
      · rw [Function.update_of_ne (fun hc => hin (ha i hi n (by omega) (hkey.symm.trans hc)))]
        exact ih₁ i (by omega) hkey
    · rw [Function.update_of_ne (hkey n (by omega))]
      exact ih₂ fun i hi => hkey i (by omega)

/-- An entry maps the `i`-th of its file pages to the `i`-th page of its chain. -/
theorem indexEntry_apply {E : LogEntry} (h : E.Stored m)
    (hb : E.startWriteOff + 4096 * E.pages.length ≤ 2 ^ 64) (idx : Nat → Nat) (key : Nat) :
    (∀ i q, E.pages[i]? = some q → key = E.startWriteOff + 4096 * i →
      indexEntry m idx E.off key = q) ∧
    ((∀ i < E.pages.length, key ≠ E.startWriteOff + 4096 * i) →
      indexEntry m idx E.off key = idx key) := by
  have hkeys : ∀ i < E.pages.length, addU64 E.startWriteOff (i * pageSize) =
      E.startWriteOff + 4096 * i := fun i hi => by
    rw [pageSize_eq, addU64_of_lt (by omega)]
    omega
  obtain ⟨h1, h2⟩ := foldl_update_apply (fun k => addU64 E.startWriteOff (k * pageSize))
    (fun k => (pageLink m)^[k] E.data) idx E.pages.length key (fun i hi j hj hij => by
      simp only [hkeys i hi, hkeys j hj] at hij
      omega)
  rw [indexEntry, h.words.numPages, h.words.startWriteOff, h.words.data]
  refine ⟨fun i q hq hkey => ?_, fun hkey => h2 fun i hi => ?_⟩
  · obtain ⟨hi, rfl⟩ := List.getElem?_eq_some_iff.1 hq
    rw [h1 i hi (by rw [hkeys i hi]; exact hkey)]
    exact h.chain.chain.iterate hi
  · rw [hkeys i hi]
    exact hkey i hi

/-- The entries cover consecutive file pages from `start` on. -/
def Tiles : Nat → List LogEntry → Prop
  | _, [] => True
  | start, E :: es => E.startWriteOff = start ∧ Tiles (start + 4096 * E.pages.length) es

theorem indexEntries_apply {es : List LogEntry} {start : Nat} (h : ∀ E ∈ es, E.Stored m)
    (ht : Tiles start es) (hb : start + 4096 * (pagesOf es).length ≤ 2 ^ 64) (idx : Nat → Nat)
    (key : Nat) :
    (∀ i q, (pagesOf es)[i]? = some q → key = start + 4096 * i →
      indexEntries m idx (es.map (·.off)) key = q) ∧
    ((∀ i < (pagesOf es).length, key ≠ start + 4096 * i) →
      indexEntries m idx (es.map (·.off)) key = idx key) := by
  induction es generalizing start idx with
  | nil => exact ⟨by simp, fun _ => rfl⟩
  | cons E es ih =>
    obtain ⟨hstart, ht⟩ := ht
    rw [pagesOf_cons, List.length_append] at hb
    have hE := indexEntry_apply (h E (by simp)) (by omega) idx key
    have ih := ih (fun E' hE' => h E' (List.mem_cons_of_mem _ hE')) ht (by omega)
      (indexEntry m idx E.off)
    rw [hstart] at hE
    simp only [List.map_cons, indexEntries, List.foldl_cons] at ih ⊢
    rw [pagesOf_cons]
    refine ⟨fun i q hq hkey => ?_, fun hkey => ?_⟩
    · rw [List.getElem?_append] at hq
      split_ifs at hq with hi
      · exact (ih.2 fun j hj => by omega).trans (hE.1 i q hq hkey)
      · exact ih.1 _ q hq (by omega)
    · rw [List.length_append] at hkey
      refine (ih.2 fun j hj hc => hkey (E.pages.length + j) (by omega) (by omega)).trans
        (hE.2 fun i hi => hkey i (by omega))

theorem Chunks.tiles {v : WriteVars} {es : List LogEntry} (h : Chunks v es) (hv : v.Valid) :
    Tiles v.startPage es := by
  induction h with
  | done => trivial
  | @chunk v E es userBuf logTail pos length startWriteOff _ _ _ rest ih =>
    refine ⟨startWriteOff, ?_⟩
    by_cases hmore : 64 < v.pageNums
    · have hn := v.allocNum_eq
      have := ih (hv.next hmore _ _)
      rwa [hv.next_startPage hmore, show 64 = E.pages.length by omega] at this
    · have hzero : (v.next userBuf logTail).pageNums = 0 := by
        have := v.allocNum_eq
        rw [WriteVars.next]
        simp only
        omega
      cases rest with
      | done => trivial
      | chunk _ _ pos => omega

end Index

/-! ## The write -/

/-- The inode lies in a page in use that is not the end of the log. -/
def InodePage (f : Frontier) (inode p : Nat) : Prop :=
  IsPage p ∧ p ∉ f.free ∧ p ≠ f.page ∧ p ≤ inode ∧ inode + sizeofAtfsInode ≤ p + 4096

/-- A write to an inode whose log ends at `f`: the pages of the index, the last page of the
log and the page of the inode are in use, and the range does not wrap. -/
structure WritePre (A : PageAllocator) (f : Frontier) (s : State) (inode cnt fileOff : Nat) :
    Prop where
  holds : f.Holds A s.mem
  tail : AtfsInode.logTail.get s.mem inode = f.tail
  inodePage : ∃ p, InodePage f inode p
  mapped : Mapped (s.index inode) f
  pos : 1 ≤ cnt
  bound : fileOff + cnt < 2 ^ 64

section Write

variable {A : PageAllocator} {R : RadixTree} {f : Frontier} {s s' : State} {buf : Memory}
  {inode cnt fileOff ret : Nat}

theorem writeVars_startPage (m : Memory) (inode cnt : Nat) (hb : fileOff < 2 ^ 64) :
    (writeVars m inode cnt fileOff).startPage = fileOff / 4096 * 4096 := and_pageMask hb

theorem writeVars_offset (m : Memory) (inode cnt fileOff : Nat) :
    (writeVars m inode cnt fileOff).offset = fileOff % 4096 := and_pageOffsetMask fileOff

theorem writeVars_pageNums (m : Memory) (inode : Nat) (hpos : 1 ≤ cnt)
    (hb : fileOff + cnt < 2 ^ 64) :
    (writeVars m inode cnt fileOff).pageNums = (cnt + fileOff % 4096 + 4095) / 4096 := by
  rw [writeVars]
  simp only [and_pageOffsetMask]
  rw [addU64_of_lt (a := cnt) (by omega), subU64_of_le (by omega) (by omega),
    Nat.shiftRight_eq_div_pow, show 2 ^ pageShift = 4096 from rfl, addU64_of_lt (by omega)]
  omega

theorem writeVars_valid (m : Memory) (inode : Nat) (hpos : 1 ≤ cnt) (hb : fileOff + cnt < 2 ^ 64) :
    (writeVars m inode cnt fileOff).Valid := by
  have ho := writeVars_offset m inode cnt fileOff
  have hs := writeVars_startPage m inode cnt (show fileOff < 2 ^ 64 by omega)
  have hn := writeVars_pageNums m inode hpos hb
  have ht : (writeVars m inode cnt fileOff).totalSize = cnt := rfl
  constructor <;> omega

/-- A write of at least one byte starts with variables that fit, wherever it ends. -/
theorem writeVars_sized {cnt fileOff : Nat} (m : Memory) (inode : Nat) (hpos : 1 ≤ cnt)
    (hcnt : cnt < 2 ^ 64) (hb : fileOff < 2 ^ 64) : (writeVars m inode cnt fileOff).Sized := by
  have ho := writeVars_offset m inode cnt fileOff
  have hs := writeVars_startPage m inode cnt hb
  have ht : (writeVars m inode cnt fileOff).totalSize = cnt := rfl
  have hn : (writeVars m inode cnt fileOff).pageNums =
      (cnt + fileOff % 4096 + 4095) / 4096 ∨ (writeVars m inode cnt fileOff).pageNums = 1 ∧
        0 < fileOff % 4096 ∧ 4096 < cnt + fileOff % 4096 := by
    rw [writeVars]
    simp only [and_pageOffsetMask, Nat.shiftRight_eq_div_pow, addU64, subU64]
    rw [show 2 ^ pageShift = 4096 from rfl]
    omega
  refine ⟨by omega, by omega, by omega, by omega⟩

/-- `nvmio_write` fails only when the allocator has no pages left. -/
theorem nvmioWrite_error {e : Fault} (h : nvmioWrite A R s inode buf cnt fileOff = .error e) :
    e = .noPages := by
  rw [nvmioWrite] at h
  rcases bind_eq_error.1 h with h | ⟨⟨v, s₁⟩, -, h⟩
  · exact writeLoop_error h (Nat.lt_succ_self _)
  · simp at h

/-- The rounds of `nvmio_write`, and what it does when they are over. -/
theorem nvmioWrite_run (hpre : WritePre A f s inode cnt fileOff)
    (h : nvmioWrite A R s inode buf cnt fileOff = .ok (ret, s')) :
    ret = cnt ∧ ∃ s₁ f' es ts evs,
      (∃ v', writeLoop A inode buf ((writeVars s.mem inode cnt fileOff).pageNums + 1)
        (writeVars s.mem inode cnt fileOff) s = .ok (v', s₁)) ∧
      WriteRun A ∅ buf (s.index inode) f f' (writeVars s.mem inode cnt fileOff) s.mem s₁.mem es ts ∧
      EntrySteps A f f' s.mem s₁.mem es evs ∧ Recorded evs s s₁ ∧
      List.Forall₂ (RoundOf A buf) es (writeRounds A inode buf
        ((writeVars s.mem inode cnt fileOff).pageNums + 1) (writeVars s.mem inode cnt fileOff) s) ∧
      WriteRun A (AtfsInode.logTail.bytes inode) buf (s.index inode) f f'
        (writeVars s.mem inode cnt fileOff) s.mem s'.mem es ts ∧
      AtfsInode.logTail.get s'.mem inode = f'.tail ∧
      s' = { s₁ with
        mem := updateInodeTail s₁.mem inode f'.tail
        index := Function.update s.index inode
          (indexEntries s'.mem (s.index inode) (es.map (·.off))) } := by
  have hv := writeVars_valid s.mem inode hpre.pos hpre.bound
  rw [nvmioWrite] at h
  obtain ⟨⟨v', s₁⟩, hloop, h⟩ := bind_eq_ok.1 h
  simp only [Except.ok.injEq, Prod.mk.injEq] at h
  obtain ⟨rfl, rfl⟩ := h
  refine ⟨rfl, ?_⟩
  obtain ⟨f', es, ts, evs, hrun, hsteps, hrec, hall, htail, hindex⟩ :=
    writeLoop_spec hpre.holds hpre.tail
    hv hpre.mapped (AtfsInode.iSize.get_lt _ _) hloop
  obtain ⟨p, hp, hpF, hpT, hle, hle'⟩ := hpre.inodePage
  rw [show sizeofAtfsInode = 216 from rfl] at hle'
  have hbytes : ∀ a ∈ AtfsInode.logTail.bytes inode, a ∈ pageBytes p ∧ a ∉ linkBytes p := by
    intro a ha
    simp only [Field.bytes, AtfsInode.logTail_off, AtfsInode.logTail_size, Set.mem_Ico] at ha
    rw [mem_pageBytes, mem_linkBytes]
    omega
  have hrun' := hrun.write (AtfsInode.logTail.changesOnly_set s₁.mem inode v'.logTail) hp hpF hpT
    hbytes hv.offset_lt.le
  rw [Set.empty_union] at hrun'
  have hold : AtfsInode.logTail.get s₁.mem inode = f.tail := by
    rw [← hpre.tail]
    refine Field.get_congr fun a ha => ?_
    exact hrun.step.keeps hpre.holds hp hpF hpT (hbytes a ha).1 (Set.notMem_empty _)
  have hlt : v'.logTail < 2 ^ 64 := by
    have := hrun.step.holds.isPage.bounds
    have := hrun.step.holds.tail_le
    omega
  have hnew : AtfsInode.logTail.get (updateInodeTail s₁.mem inode v'.logTail) inode = f'.tail := by
    rw [← htail]
    exact Field.get_set_self_of_lt _ _ hlt
  -- the index is updated from the entries between the old and the new tail
  have hpath := hrun'.step.path
  have hnot := hrun'.step.tail_not_mem
  rw [← hnew] at hpath hnot
  have hupd := R.spec { s₁ with mem := updateInodeTail s₁.mem inode v'.logTail } inode f.tail ts
    hpath hnot
  refine ⟨s₁, f', es, ts, evs, ⟨v', hloop⟩, hrun, hsteps, hrec, hall, ?_, ?_, ?_⟩
  · rw [hold, hupd]
    exact hrun'
  · rw [hold, hupd]
    exact hnew
  · rw [hold, hupd, ← hrun'.slots, ← htail]
    simp only [hindex]
    rfl

/-- `nvmio_write` appends the entries of its chunks, moves the tail of the inode behind them
and enters them into the index. -/
theorem nvmioWrite_spec (hpre : WritePre A f s inode cnt fileOff)
    (h : nvmioWrite A R s inode buf cnt fileOff = .ok (ret, s')) :
    ret = cnt ∧ ∃ f' es ts,
      WriteRun A (AtfsInode.logTail.bytes inode) buf (s.index inode) f f'
        (writeVars s.mem inode cnt fileOff) s.mem s'.mem es ts ∧
      AtfsInode.logTail.get s'.mem inode = f'.tail ∧
      s'.index = Function.update s.index inode
        (indexEntries s'.mem (s.index inode) (es.map (·.off))) := by
  obtain ⟨hret, s₁, f', es, ts, evs, -, -, -, -, -, hrun, htail, hs'⟩ := nvmioWrite_run hpre h
  exact ⟨hret, f', es, ts, hrun, htail, congrArg State.index hs'⟩

/-- The pages of the write in the index. -/
theorem WriteRun.index_apply {D : Set Nat} {f' : Frontier} {m m' : Memory} {index : Nat → Nat}
    {es : List LogEntry} {ts : List Nat} {v : WriteVars}
    (h : WriteRun A D buf index f f' v m m' es ts) (hv : v.Valid) (key : Nat) :
    (∀ i q, (pagesOf es)[i]? = some q → key = v.startPage + 4096 * i →
      indexEntries m' index (es.map (·.off)) key = q) ∧
    ((∀ i < v.pageNums, key ≠ v.startPage + 4096 * i) →
      indexEntries m' index (es.map (·.off)) key = index key) := by
  have := indexEntries_apply h.stored (h.chunks.tiles hv)
    (by rw [h.length]; exact hv.startPage_bound) index key
  rwa [h.length] at this

end Write

end Atfs
