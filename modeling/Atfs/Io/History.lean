import Atfs.Io.Contents

/-!
# Histories of writes

`content` says what a file holds after a sequence of writes, with zeroes where nothing was
written. The code agrees with it as long as every write is `Careful`: it starts at a page
boundary or in a page the file has, ends at a page boundary or at the end of the file, and
leaves no gap behind a last page that is only partly written. Otherwise bytes that the pages held
before they were allocated show through.
-/

namespace Atfs

open ByteMemory LinkedChain

/-! ## The calls -/

/-- A call of `atfswrite` after a seek to `fileOff`. -/
structure WriteCall where
  buf : Memory
  cnt : Nat
  fileOff : Nat

def seekWrite (A : PageAllocator) (R : RadixTree) (inode : Nat) (s : State) (w : WriteCall) :
    Except Fault State := do
  let (_, s) := atfslseek s inode w.fileOff .seekSet
  let (_, s) ← atfswrite A R s inode w.buf w.cnt
  .ok s

def runWrites (A : PageAllocator) (R : RadixTree) (inode : Nat) :
    State → List WriteCall → Except Fault State
  | s, [] => .ok s
  | s, w :: ws => do
    let s ← seekWrite A R inode s w
    runWrites A R inode s ws

/-! ## What a file should hold -/

def WriteCall.Covers (w : WriteCall) (x : Nat) : Prop := w.fileOff ≤ x ∧ x < w.fileOff + w.cnt

instance (w : WriteCall) (x : Nat) : Decidable (w.Covers x) := inferInstanceAs (Decidable (_ ∧ _))

/-- The byte at position `x` after the calls `hs`, the newest first. -/
def content : List WriteCall → Nat → UInt8
  | [], _ => 0
  | w :: hs, x => if w.Covers x then w.buf (x - w.fileOff) else content hs x

/-- The size of the file after the calls `hs`. -/
def fileEnd : List WriteCall → Nat
  | [] => 0
  | w :: hs => max (fileEnd hs) (w.fileOff + w.cnt)

/-- One of the calls has written to page number `k` of the file. -/
def Touched (hs : List WriteCall) (k : Nat) : Prop :=
  ∃ w ∈ hs, w.fileOff / 4096 ≤ k ∧ k * 4096 < w.fileOff + w.cnt

/-- The call `w` after the calls `hs` exposes no byte that was never written. -/
structure Careful (hs : List WriteCall) (w : WriteCall) : Prop where
  pos : 1 ≤ w.cnt
  bound : w.fileOff + w.cnt < 2 ^ 64
  front : w.fileOff % 4096 = 0 ∨ Touched hs (w.fileOff / 4096)
  back : (w.fileOff + w.cnt) % 4096 = 0 ∨ fileEnd hs ≤ w.fileOff + w.cnt
  gap : w.fileOff ≤ fileEnd hs ∨ fileEnd hs % 4096 = 0

/-- Every one of the calls `ws`, made after `hs`, is careful. -/
def CarefulRun : List WriteCall → List WriteCall → Prop
  | _, [] => True
  | hs, w :: ws => Careful hs w ∧ CarefulRun (w :: hs) ws

section Content

variable {hs : List WriteCall} {w : WriteCall} {x k : Nat}

/-- Where no call has written the file is zero. -/
theorem content_of_not_covered (h : ∀ w ∈ hs, ¬ w.Covers x) : content hs x = 0 := by
  induction hs with
  | nil => rfl
  | cons w hs ih =>
    rw [content, if_neg (h w (by simp))]
    exact ih fun w' hw' => h w' (by simp [hw'])

theorem content_of_end_le (h : fileEnd hs ≤ x) : content hs x = 0 := by
  induction hs with
  | nil => rfl
  | cons w hs ih =>
    rw [fileEnd] at h
    rw [content, if_neg (by rw [WriteCall.Covers]; omega)]
    exact ih (by omega)

theorem touched_cons : Touched (w :: hs) k ↔
    (w.fileOff / 4096 ≤ k ∧ k * 4096 < w.fileOff + w.cnt) ∨ Touched hs k := by
  simp [Touched]

/-- The pages of a file lie below its end. -/
theorem Touched.lt (h : Touched hs k) : k * 4096 < fileEnd hs := by
  induction hs with
  | nil => simp [Touched] at h
  | cons w hs ih =>
    rw [fileEnd]
    rcases touched_cons.1 h with h | h
    · omega
    · have := ih h
      omega

end Content

/-! ## Files that hold what they should -/

/-- The file of the inode holds the content left by the calls `hs`. -/
structure FileRep (A : PageAllocator) (f : Frontier) (s : State) (inode : Nat)
    (hs : List WriteCall) : Prop where
  holds : f.Holds A s.mem
  tail : AtfsInode.logTail.get s.mem inode = f.tail
  inodePage : ∃ p, InodePage f inode p ∧ ∀ key, s.index inode key ≠ p
  mapped : Mapped (s.index inode) f
  size : AtfsInode.iSize.get s.mem inode = fileEnd hs
  keys : ∀ k, s.index inode (k * 4096) ≠ offsetNull ↔ Touched hs k
  bytes : ∀ x < fileEnd hs, fileByte s inode x = content hs x

section Step

variable {A : PageAllocator} {R : RadixTree} {f : Frontier} {s s' : State} {inode : Nat}
  {hs : List WriteCall} {w : WriteCall} {m' : Memory}

/-- A page in use lies outside what the allocator looks at. -/
theorem eqOn_allocator {W F : Set Nat} {m : Memory} {p : Nat} (hF : ∀ q ∈ F, IsPage q)
    (hm : ChangesOnly W m m') (hp : IsPage p) (hpF : p ∉ F) (hW : W ⊆ pageBytes p) :
    Set.EqOn m' m (metadata ∪ bytesOf F) := by
  refine hm.eqOn (Set.disjoint_left.2 ?_)
  rintro a ha (hmeta | hfree)
  · have := hp.bounds
    have := hW ha
    rw [mem_pageBytes] at this
    rw [mem_metadata] at hmeta
    omega
  · exact not_mem_bytesOf hF hp hpF (hW ha) hfree

theorem Frontier.Holds.congr {W : Set Nat} {m : Memory} {p : Nat} (h : f.Holds A m)
    (hm : ChangesOnly W m m') (hp : IsPage p) (hpF : p ∉ f.free) (hW : W ⊆ pageBytes p) :
    f.Holds A m' :=
  { h with rep := A.rep_congr h.rep (eqOn_allocator (A.rep_page h.rep) hm hp hpF hW) }

theorem InodePage.infoBytes_subset {p : Nat} (h : InodePage f inode p) :
    infoBytes inode ⊆ pageBytes p := by
  obtain ⟨-, -, -, hle, hle'⟩ := h
  rw [show sizeofAtfsInode = 216 from rfl] at hle'
  intro a ha
  simp only [infoBytes, Field.bytes, AtfsInode.iSize_off, AtfsInode.iSize_size,
    AtfsInode.fileOff_off, AtfsInode.fileOff_size, Set.mem_union, Set.mem_Ico] at ha
  rw [mem_pageBytes]
  omega

theorem logTail_congr {m : Memory} (hm : ChangesOnly (infoBytes inode) m m') :
    AtfsInode.logTail.get m' inode = AtfsInode.logTail.get m inode := by
  refine hm.get _ (Set.disjoint_left.2 fun a ha ha' => ?_)
  simp only [infoBytes, Field.bytes, AtfsInode.iSize_off, AtfsInode.iSize_size,
    AtfsInode.fileOff_off, AtfsInode.fileOff_size, AtfsInode.logTail_off, AtfsInode.logTail_size,
    Set.mem_union, Set.mem_Ico] at ha ha'
  omega

/-- Reading a byte only needs its page. -/
theorem fileByte_eq_of_page {x : Nat} {t : State} (hindex : t.index inode (x / 4096 * 4096) =
    s.index inode (x / 4096 * 4096)) (hmem : s.index inode (x / 4096 * 4096) ≠ offsetNull →
      t.mem (s.index inode (x / 4096 * 4096) + x % 4096) =
        s.mem (s.index inode (x / 4096 * 4096) + x % 4096)) :
    fileByte t inode x = fileByte s inode x := by
  rw [fileByte, fileByte, hindex]
  split_ifs with h
  · exact hmem h
  · rfl

/-- Setting the position of the inode changes nothing of the file. -/
theorem FileRep.info (h : FileRep A f s inode hs) (hm : ChangesOnly (infoBytes inode) s.mem m')
    (hsize : AtfsInode.iSize.get m' inode = AtfsInode.iSize.get s.mem inode) :
    FileRep A f { s with mem := m' } inode hs := by
  obtain ⟨p, hinode, hne⟩ := h.inodePage
  refine { h with
    holds := h.holds.congr hm hinode.1 hinode.2.1 hinode.infoBytes_subset
    tail := (logTail_congr hm).trans h.tail
    size := hsize.trans h.size
    bytes := fun x hx => ?_ }
  rw [← h.bytes x hx]
  refine fileByte_eq_of_page rfl fun hmap => hm _ ?_
  refine hinode.infoBytes_apart (h.mapped _ hmap).1 (hne _) ?_
  rw [mem_pageBytes]
  omega

theorem FileRep.writePre (h : FileRep A f s inode hs) {cnt fileOff : Nat} (hpos : 1 ≤ cnt)
    (hb : fileOff + cnt < 2 ^ 64) : WritePre A f s inode cnt fileOff where
  holds := h.holds
  tail := h.tail
  inodePage := h.inodePage.imp fun _ hp => hp.1
  mapped := h.mapped
  pos := hpos
  bound := hb

/-- A key of the index either belongs to the write or is left alone. -/
theorem WriteRun.index_cases {D : Set Nat} {f' : Frontier} {m m' : Memory} {index : Nat → Nat}
    {es : List LogEntry} {ts : List Nat} {v : WriteVars} {buf : Memory}
    (h : WriteRun A D buf index f f' v m m' es ts) (hv : v.Valid) (key : Nat) :
    indexEntries m' index (es.map (·.off)) key ∈ pagesOf es ∨
      indexEntries m' index (es.map (·.off)) key = index key := by
  obtain ⟨hin, hout⟩ := h.index_apply hv key
  by_cases hkey : ∃ i < v.pageNums, key = v.startPage + 4096 * i
  · obtain ⟨i, hi, hkey⟩ := hkey
    have hi' : i < (pagesOf es).length := by
      rw [h.length]
      exact hi
    refine .inl ?_
    rw [hin i _ (List.getElem?_eq_getElem hi') hkey]
    exact List.getElem_mem hi'
  · exact .inr (hout fun i hi hc => hkey ⟨i, hi, hc⟩)

/-- The pages of the file outside the write are left alone. -/
theorem WriteRun.index_outside {D : Set Nat} {f' : Frontier} {m m' : Memory} {index : Nat → Nat}
    {es : List LogEntry} {ts : List Nat} {buf : Memory} {cnt fileOff k : Nat}
    (h : WriteRun A D buf index f f' (writeVars m inode cnt fileOff) m m' es ts) (hpos : 1 ≤ cnt)
    (hb : fileOff + cnt < 2 ^ 64) (hk : k < fileOff / 4096 ∨ fileOff + cnt ≤ k * 4096) :
    indexEntries m' index (es.map (·.off)) (k * 4096) = index (k * 4096) := by
  refine (h.index_apply (writeVars_valid m inode hpos hb) _).2 fun i hi => ?_
  rw [writeVars_pageNums m inode hpos hb] at hi
  rw [writeVars_startPage m inode cnt (by omega)]
  omega

/-- The bytes of the pages a write does not touch. -/
theorem FileRep.bytes_outside {ret x : Nat} (h : FileRep A f s inode hs) (hw : Careful hs w)
    (hrun : nvmioWrite A R s inode w.buf w.cnt w.fileOff = .ok (ret, s'))
    (hm : ChangesOnly (infoBytes inode) s'.mem m')
    (hx : x / 4096 < w.fileOff / 4096 ∨ w.fileOff + w.cnt ≤ x / 4096 * 4096) :
    fileByte { s' with mem := m' } inode x = fileByte s inode x := by
  obtain ⟨p, hinode, hne⟩ := h.inodePage
  obtain ⟨-, f', es, ts, hwr, -, hindex⟩ := nvmioWrite_spec (h.writePre hw.pos hw.bound) hrun
  have hkey : s'.index inode (x / 4096 * 4096) = s.index inode (x / 4096 * 4096) := by
    rw [hindex, Function.update_self]
    exact hwr.index_outside hw.pos hw.bound hx
  refine fileByte_eq_of_page hkey fun hmap => ?_
  obtain ⟨hold, holdF, holdT⟩ := h.mapped _ hmap
  have hmem : s.index inode (x / 4096 * 4096) + x % 4096 ∈
      pageBytes (s.index inode (x / 4096 * 4096)) := by
    rw [mem_pageBytes]
    omega
  refine (hm _ (hinode.infoBytes_apart hold (hne _) hmem)).trans ?_
  refine hwr.step.keeps h.holds hold holdF holdT hmem fun hD => ?_
  obtain ⟨hp, -, -, hle, hle'⟩ := hinode
  rw [show sizeofAtfsInode = 216 from rfl] at hle'
  have := hold.apart hp (hne _)
  simp only [Field.bytes, AtfsInode.logTail_off, AtfsInode.logTail_size, Set.mem_Ico] at hD
  omega

/-- The bytes in front of a write, in its first page. -/
theorem FileRep.bytes_front {ret x : Nat} (h : FileRep A f s inode hs) (hw : Careful hs w)
    (hrun : nvmioWrite A R s inode w.buf w.cnt w.fileOff = .ok (ret, s'))
    (hm : ChangesOnly (infoBytes inode) s'.mem m') (hx : x / 4096 = w.fileOff / 4096)
    (hx' : x < w.fileOff) (hmap : Touched hs (w.fileOff / 4096)) :
    fileByte { s' with mem := m' } inode x = fileByte s inode x := by
  obtain ⟨p, hinode, hne⟩ := h.inodePage
  obtain ⟨hpage, hfree, hbytes⟩ := nvmioWrite_firstPage (h.writePre hw.pos hw.bound) hrun
  have hmap' := (h.keys _).2 hmap
  have hkey : firstPage w.fileOff = x / 4096 * 4096 := by rw [firstPage, hx]
  rw [hkey] at hpage hfree hbytes
  rw [← hx] at hmap'
  have hnew : s'.index inode (x / 4096 * 4096) ≠ p := by
    intro hc
    exact hinode.2.1 (hc ▸ hfree)
  have hmem : s'.index inode (x / 4096 * 4096) + x % 4096 ∈
      pageBytes (s'.index inode (x / 4096 * 4096)) := by
    rw [mem_pageBytes]
    omega
  have hlt : x % 4096 < w.fileOff % 4096 := by omega
  have hfront := hbytes _ hlt
  rw [if_pos hmap'] at hfront
  have hkeep := hm _ (hinode.infoBytes_apart hpage hnew hmem)
  rw [fileByte, fileByte, if_pos hpage.ne_offsetNull, if_pos hmap']
  exact hkeep.trans hfront

/-- A careful write changes no byte of the file outside its range. -/
theorem FileRep.bytes_around {ret x : Nat} (h : FileRep A f s inode hs) (hw : Careful hs w)
    (hrun : nvmioWrite A R s inode w.buf w.cnt w.fileOff = .ok (ret, s'))
    (hm : ChangesOnly (infoBytes inode) s'.mem m') (hcov : ¬ w.Covers x)
    (hx : x < fileEnd (w :: hs)) :
    fileByte { s' with mem := m' } inode x = content hs x := by
  rw [WriteCall.Covers] at hcov
  rw [fileEnd] at hx
  have hgap := hw.gap
  by_cases hout : x / 4096 < w.fileOff / 4096 ∨ w.fileOff + w.cnt ≤ x / 4096 * 4096
  · rw [h.bytes_outside hw hrun hm hout]
    by_cases hend : x < fileEnd hs
    · exact h.bytes x hend
    · -- behind an end at a page boundary the file has no pages
      have hnone : s.index inode (x / 4096 * 4096) = offsetNull := by
        by_contra hmap
        have := ((h.keys _).1 hmap).lt
        omega
      rw [content_of_end_le (by omega), fileByte, if_neg (by simp [hnone])]
  · by_cases hfirst : x < w.fileOff
    · have hmap : Touched hs (w.fileOff / 4096) := by
        refine hw.front.resolve_left ?_
        omega
      have := hmap.lt
      rw [h.bytes_front hw hrun hm (by omega) hfirst hmap]
      exact h.bytes x (by omega)
    · -- a careful write leaves nothing of the file behind it in its last page
      have := hw.back
      omega

/-- A careful write, together with the size it leaves, adds its bytes to the content. -/
theorem FileRep.write {ret : Nat} (h : FileRep A f s inode hs) (hw : Careful hs w)
    (hrun : nvmioWrite A R s inode w.buf w.cnt w.fileOff = .ok (ret, s'))
    (hm : ChangesOnly (infoBytes inode) s'.mem m')
    (hsize : AtfsInode.iSize.get m' inode = fileEnd (w :: hs)) :
    ∃ f', FileRep A f' { s' with mem := m' } inode (w :: hs) := by
  have hpre := h.writePre hw.pos hw.bound
  have hv := writeVars_valid s.mem inode hw.pos hw.bound
  obtain ⟨p, hinode, hne⟩ := h.inodePage
  obtain ⟨-, f', es, ts, hwr, htail, hindex⟩ := nvmioWrite_spec hpre hrun
  have hpage : ∀ q ∈ pagesOf es, IsPage q := fun q hq => A.rep_page h.holds.rep q (hwr.fresh q hq).1
  have hnew : s'.index inode = indexEntries s'.mem (s.index inode) (es.map (·.off)) := by
    rw [hindex, Function.update_self]
  have hcases : ∀ key, s'.index inode key ∈ pagesOf es ∨
      s'.index inode key = s.index inode key := by
    intro key
    rw [hnew]
    exact hwr.index_cases hv key
  have hinode' : InodePage f' inode p := by
    obtain ⟨hp, hpF, hpT, hle⟩ := hinode
    refine ⟨hp, fun hc => hpF (hwr.step.sub hc), ?_, hle⟩
    rintro rfl
    rcases hwr.step.moved with ⟨hT, -⟩ | hT
    · exact hpT hT
    · exact hpF hT
  have hinside : ∀ k, w.fileOff / 4096 ≤ k → k * 4096 < w.fileOff + w.cnt →
      s'.index inode (k * 4096) ≠ offsetNull := by
    intro k hk hk'
    have hround : k * 4096 / 4096 = k := Nat.mul_div_cancel k (by decide)
    obtain ⟨i, q, -, hq, -, hkey⟩ := hwr.page_at hw.pos hw.bound (x := k * 4096)
      (Nat.mul_le_mul_right _ hk) (by rwa [hround])
    rw [hround] at hkey
    rw [hnew, hkey]
    exact hq.ne_offsetNull
  have houtside : ∀ k, (k < w.fileOff / 4096 ∨ w.fileOff + w.cnt ≤ k * 4096) →
      s'.index inode (k * 4096) = s.index inode (k * 4096) := by
    intro k hk
    rw [hnew]
    exact hwr.index_outside hw.pos hw.bound hk
  refine ⟨f', ⟨?_, ?_, ⟨p, hinode', ?_⟩, ?_, hsize, ?_, ?_⟩⟩
  · exact hwr.step.holds.congr hm hinode'.1 hinode'.2.1 hinode'.infoBytes_subset
  · exact (logTail_congr hm).trans htail
  · intro key
    rcases hcases key with hq | hq
    · rintro hc
      exact hinode.2.1 (hc ▸ (hwr.fresh _ hq).1)
    · exact hq ▸ hne key
  · intro key hkey
    rcases hcases key with hq | hq
    · exact ⟨hpage _ hq, (hwr.fresh _ hq).2⟩
    · have := h.mapped.step hwr.step key
      simp only [hq] at hkey ⊢
      exact this hkey
  · intro k
    rw [touched_cons, ← h.keys k]
    by_cases hk : w.fileOff / 4096 ≤ k ∧ k * 4096 < w.fileOff + w.cnt
    · exact iff_of_true (hinside k hk.1 hk.2) (.inl hk)
    · simp only [houtside k (by omega), hk, false_or]
  · intro x hx
    rw [content]
    split_ifs with hcov
    · exact fileByte_nvmioWrite hpre hrun hm hcov.1 hcov.2
    · exact h.bytes_around hw hrun hm hcov hx

end Step

/-! ## Runs -/

section Run

variable {A : PageAllocator} {R : RadixTree} {f : Frontier} {s s' : State} {inode : Nat}
  {hs ws : List WriteCall} {w : WriteCall} {m : Memory}

variable (s inode) in
theorem atfslseek_seekSet {off : Nat} (hoff : off < 2 ^ 64) :
    (atfslseek s inode off .seekSet).2 =
      { s with mem := AtfsInode.fileOff.set s.mem inode off } := by
  have hmod : ((off : Int) % 2 ^ 64).toNat = off := by omega
  simp only [atfslseek, hmod]

theorem changesOnly_fileOff (m : Memory) (inode off : Nat) :
    ChangesOnly (infoBytes inode) m (AtfsInode.fileOff.set m inode off) :=
  (AtfsInode.fileOff.changesOnly_set m inode off).mono Set.subset_union_right

/-- `update_inode_info` behind a write that started at `off`. -/
theorem updateInodeInfo_spec {off cnt : Nat} (hoff : AtfsInode.fileOff.get m inode = off)
    (hb : off + cnt < 2 ^ 64) : ChangesOnly (infoBytes inode) m (updateInodeInfo m inode cnt) ∧
      AtfsInode.iSize.get (updateInodeInfo m inode cnt) inode =
        max (AtfsInode.iSize.get m inode) (off + cnt) := by
  have hnew : AtfsInode.fileOff.get (updateInodeOffset m inode cnt) inode = off + cnt := by
    rw [updateInodeOffset, hoff]
    exact Field.get_set_self_of_lt _ _ hb
  have hold : AtfsInode.iSize.get (updateInodeOffset m inode cnt) inode =
      AtfsInode.iSize.get m inode :=
    Field.get_set_of_disjoint _ _ _ (.inl (by simp))
  have hchange : ChangesOnly (infoBytes inode) m (updateInodeOffset m inode cnt) :=
    changesOnly_fileOff _ _ _
  rw [updateInodeInfo, updateInodeSize, hnew, hold, addU64_of_lt (by omega)]
  split_ifs with h
  · refine ⟨hchange.trans ?_, ?_⟩
    · exact (AtfsInode.iSize.changesOnly_set _ inode _).mono Set.subset_union_left
    · rw [Field.get_set_self_of_lt _ _ hb]
      omega
  · exact ⟨hchange, by omega⟩

/-- A call is a seek, a write and an update of the inode. -/
theorem seekWrite_ok (hb : w.fileOff + w.cnt < 2 ^ 64) :
    seekWrite A R inode s w = .ok s' ↔ ∃ ret s₁,
      nvmioWrite A R { s with mem := AtfsInode.fileOff.set s.mem inode w.fileOff } inode w.buf w.cnt
        w.fileOff = .ok (ret, s₁) ∧ s' = { s₁ with mem := updateInodeInfo s₁.mem inode w.cnt } := by
  have hoff : AtfsInode.fileOff.get (AtfsInode.fileOff.set s.mem inode w.fileOff) inode =
      w.fileOff :=
    Field.get_set_self_of_lt _ _ (show w.fileOff < 2 ^ 64 by omega)
  have hseek := atfslseek_seekSet s inode (show w.fileOff < 2 ^ 64 by omega)
  rw [seekWrite]
  simp only [hseek, atfswrite, hoff]
  constructor
  · intro h
    obtain ⟨⟨ret, s₂⟩, h, hs'⟩ := bind_eq_ok.1 h
    obtain ⟨⟨ret', s₁⟩, hwrite, h⟩ := bind_eq_ok.1 h
    simp only [Except.ok.injEq, Prod.mk.injEq] at h hs'
    exact ⟨ret', s₁, hwrite, by rw [← hs', ← h.2]⟩
  · rintro ⟨ret, s₁, hwrite, rfl⟩
    exact bind_eq_ok.2 ⟨_, bind_eq_ok.2 ⟨_, hwrite, rfl⟩, rfl⟩

theorem FileRep.seekWrite (h : FileRep A f s inode hs) (hw : Careful hs w)
    (hrun : seekWrite A R inode s w = .ok s') : ∃ f', FileRep A f' s' inode (w :: hs) := by
  obtain ⟨ret, s₁, hwrite, rfl⟩ := (seekWrite_ok hw.bound).1 hrun
  have hseek := changesOnly_fileOff s.mem inode w.fileOff
  have h₁ := h.info hseek (Field.get_set_of_disjoint _ _ _ (.inl (by simp)))
  have hpre := h₁.writePre hw.pos hw.bound
  have hoff := nvmioWrite_inodeField hpre hwrite AtfsInode.fileOff (by decide)
  have hsize := nvmioWrite_inodeField hpre hwrite AtfsInode.iSize (by decide)
  simp only [Field.get_set_self_of_lt _ _ (show w.fileOff < 256 ^ AtfsInode.fileOff.size from
    lt_of_le_of_lt (Nat.le_add_right _ _) hw.bound)] at hoff
  obtain ⟨hinfo, hmax⟩ := updateInodeInfo_spec hoff hw.bound
  refine h₁.write hw hwrite hinfo ?_
  rw [hmax, hsize, h₁.size, fileEnd]

/-- Careful runs keep the file what it should be. -/
theorem FileRep.runWrites (h : FileRep A f s inode hs) (hws : CarefulRun hs ws)
    (hrun : runWrites A R inode s ws = .ok s') : ∃ f',
    FileRep A f' s' inode (ws.reverse ++ hs) := by
  induction ws generalizing s f hs with
  | nil =>
    obtain rfl : s = s' := by simpa [Atfs.runWrites] using hrun
    exact ⟨f, h⟩
  | cons w ws ih =>
    rw [Atfs.runWrites] at hrun
    obtain ⟨s₁, hw, hrun⟩ := bind_eq_ok.1 hrun
    obtain ⟨f₁, h₁⟩ := h.seekWrite hws.1 hw
    rw [List.reverse_cons, List.append_assoc]
    exact ih h₁ hws.2 hrun

/-- What `nvmio_read` returns from a file that holds what it should. -/
theorem FileRep.read (h : FileRep A f s inode hs) {cnt off : Nat} (hb : off + cnt < 2 ^ 64)
    (rbuf : Memory) : nvmioRead s inode rbuf cnt off =
      if off + cnt ≤ fileEnd hs then
        .ok (cnt, fun i => if i < cnt then content hs (off + i) else rbuf i)
      else .ok (-1, rbuf) := by
  split_ifs with hsize
  · obtain ⟨rbuf', hread, hbytes⟩ := nvmioRead_spec hb (by rwa [h.size]) rbuf
    have hcontent : rbuf' = fun i => if i < cnt then content hs (off + i) else rbuf i := by
      funext i
      rw [hbytes i]
      split_ifs with hi
      · exact h.bytes _ (by omega)
      · rfl
    rw [hread, hcontent]
  · exact nvmioRead_oversize hb (by rw [h.size]; omega) rbuf

end Run

/-! ## Two runs -/

/-- A file that was just created: nothing is mapped and its size is zero. -/
structure FreshFile (A : PageAllocator) (f : Frontier) (s : State) (inode : Nat) : Prop where
  holds : f.Holds A s.mem
  tail : AtfsInode.logTail.get s.mem inode = f.tail
  inodePage : ∃ p, InodePage f inode p
  index : s.index inode = fun _ => offsetNull
  size : AtfsInode.iSize.get s.mem inode = 0

section TwoRuns

variable {A : PageAllocator} {R : RadixTree} {f f₁ f₂ : Frontier} {s s₁ s₂ t₁ t₂ : State}
  {inode : Nat} {ws : List WriteCall}

theorem FreshFile.fileRep (h : FreshFile A f s inode) : FileRep A f s inode [] where
  holds := h.holds
  tail := h.tail
  inodePage := by
    obtain ⟨p, hp⟩ := h.inodePage
    refine ⟨p, hp, fun key => ?_⟩
    rw [h.index]
    exact hp.1.ne_offsetNull.symm
  mapped := fun key hkey => absurd (congrFun h.index key) hkey
  size := h.size
  keys := fun k => by simp [h.index, Touched]
  bytes := fun x hx => absurd hx (Nat.not_lt_zero x)

/-- A fresh file; every byte of the free pages is `b`. -/
def staleFile (b : UInt8) : State := fileState 0 (fun k _ => if k < 4096 then b else 0) fun _ =>
    offsetNull

theorem staleFile_fresh (b : UInt8) : FreshFile pageAllocator fileFrontier
    (staleFile b) fileInode where
  holds := fileFrontier_holds
  tail := fileState_logTail
  inodePage := fileInode_page
  index := by
    rw [staleFile, fileState]
    simp
  size := fileState_iSize (by omega)

theorem staleFile_body (b : UInt8) : ∀ q ∈ fileFrontier.free, (staleFile b).mem q = b := by
  intro q hq
  obtain ⟨k, hk, hbody⟩ : ∃ k < 4096, (staleFile b).mem (q + 0) = if k < 4096 then b else 0 :=
    fileState_free_body hq (by decide)
  rwa [if_pos hk] at hbody

/-- A call returns if there are pages for it, and leaves what it does not need. -/
theorem FileRep.seekWrite_lasts {n : Nat} {hs : List WriteCall} {w : WriteCall}
    (h : FileRep A f s inode hs) (hpos : 1 ≤ w.cnt) (hb : w.fileOff + w.cnt < 2 ^ 64)
    (R : RadixTree)
    (hlast : A.Lasts (n + roundPages ((w.cnt + w.fileOff % 4096 + 4095) / 4096)) s.mem) :
    ∃ t, Atfs.seekWrite A R inode s w = .ok t ∧ A.Lasts n t.mem := by
  obtain ⟨p, hinode, -⟩ := h.inodePage
  have hseek := changesOnly_fileOff s.mem inode w.fileOff
  have h₁ := h.info hseek (Field.get_set_of_disjoint _ _ _ (.inl (by simp)))
  have hlast₁ := hlast.congr h.holds.rep
    (eqOn_allocator (A.rep_page h.holds.rep) hseek hinode.1 hinode.2.1
    hinode.infoBytes_subset)
  have hpre := h₁.writePre hpos hb
  obtain ⟨s', hwrite, hlast₂⟩ := nvmioWrite_lasts hpre R w.buf hlast₁
  obtain ⟨-, f', es, ts, hrun, -⟩ := nvmioWrite_spec hpre hwrite
  have hoff := nvmioWrite_inodeField hpre hwrite AtfsInode.fileOff (by decide)
  simp only [Field.get_set_self_of_lt _ _ (show w.fileOff < 256 ^ AtfsInode.fileOff.size from
    lt_of_le_of_lt (Nat.le_add_right _ _) hb)] at hoff
  obtain ⟨hinfo, -⟩ := updateInodeInfo_spec hoff hb
  have hcall : Atfs.seekWrite A R inode s w =
      .ok { s' with mem := updateInodeInfo s'.mem inode w.cnt } :=
    (seekWrite_ok hb).2 ⟨_, s', hwrite, rfl⟩
  generalize updateInodeInfo s'.mem inode w.cnt = m' at hinfo hcall
  refine ⟨_, hcall, ?_⟩
  exact hlast₂.congr hrun.step.holds.rep
    (eqOn_allocator (A.rep_page hrun.step.holds.rep) hinfo hinode.1
    (fun hc => hinode.2.1 (hrun.step.sub hc)) hinode.infoBytes_subset)

/-- There are 64 pages for the calls on the sample. -/
theorem staleFile_lasts (b : UInt8) : pageAllocator.Lasts 64 (staleFile b).mem :=
  fileState_stocked.lasts pageAllocator_follows

/-- A call on the sample returns as long as one local list has the pages. -/
theorem staleFile_write_ok (b : UInt8) {w : WriteCall} (hpos : 1 ≤ w.cnt)
    (hb : w.fileOff + w.cnt < 2 ^ 64) (hone : w.fileOff % 4096 + w.cnt ≤ 4096 * 63) :
    ∃ t, seekWrite pageAllocator radixTree fileInode (staleFile b) w = .ok t := by
  obtain ⟨t, hw, -⟩ := (staleFile_fresh b).fileRep.seekWrite_lasts (n := 0) hpos hb radixTree
    ((staleFile_lasts b).mono (by rw [roundPages]; omega))
  exact ⟨t, hw⟩

theorem runWrites_single {w : WriteCall} {t : State} (h : seekWrite A R inode s w = .ok t) :
    runWrites A R inode s [w] = .ok t := by
  rw [runWrites, h]
  rfl

/-- A byte in front of the first write shows what its page held. -/
theorem FreshFile.stale (hfresh : FreshFile A f s inode) {b : UInt8}
    (hbody : ∀ q ∈ f.free, s.mem q = b) {t : State}
    (h : seekWrite A R inode s ⟨UInt8.ofNat, 1, 1⟩ = .ok t) :
    ∃ rbuf, nvmioRead t inode (fun _ => 0) 1 0 = .ok (1, rbuf) ∧ rbuf 0 = b := by
  obtain ⟨p, hinode⟩ := hfresh.inodePage
  have hseek := changesOnly_fileOff s.mem inode 1
  have hrep := hfresh.fileRep.info hseek (Field.get_set_of_disjoint _ _ _ (.inl (by simp)))
  have hpre := hrep.writePre (le_refl 1) (show 1 + 1 < 2 ^ 64 by decide)
  obtain ⟨ret, s₁, hwrite, rfl⟩ := (seekWrite_ok (by decide)).1 h
  obtain ⟨hinfo, hsize⟩ := updateInodeInfo_spec
    ((nvmioWrite_inodeField hpre hwrite AtfsInode.fileOff (by decide)).trans
      (Field.get_set_self_of_lt _ _ (by decide))) (show 1 + 1 < 2 ^ 64 by decide)
  obtain ⟨rbuf, hread, hbuf⟩ := nvmioRead_spec (s := { s₁ with
    mem := updateInodeInfo s₁.mem inode 1 }) (show 0 + 1 < 2 ^ 64 by decide)
    (by simp only; rw [hsize]; omega) (fun _ => 0)
  refine ⟨rbuf, hread, ?_⟩
  obtain ⟨hpage, hfree, hfront⟩ := nvmioWrite_firstPage hpre hwrite
  rw [show firstPage 1 = 0 from rfl] at hpage hfree hfront
  have hstale := hfront 0 (by decide)
  rw [if_neg (by simp [hfresh.index]), Nat.add_zero] at hstale
  -- neither the seek nor the update of the inode reaches the page
  have hapart : s₁.index inode 0 ∉ infoBytes inode := by
    refine hinode.infoBytes_apart hpage (fun hc => hinode.2.1 (hc ▸ hfree)) ?_
    rw [mem_pageBytes]
    omega
  have hbyte : fileByte { s₁ with mem := updateInodeInfo s₁.mem inode 1 } inode (0 + 0) = b := by
    simp only [fileByte, Nat.add_zero, Nat.zero_div, Nat.zero_mul, Nat.zero_mod,
      if_pos hpage.ne_offsetNull]
    rw [hinfo _ hapart, hstale]
    exact (hseek _ hapart).trans (hbody _ hfree)
  have hzero := hbuf 0
  rwa [if_pos (by decide), hbyte] at hzero

/-- After a careful run on a fresh file, what reads return is the same whatever the pages held
before, and zero where nothing was written. -/
theorem nvmioRead_stale_free (h₁ : FreshFile A f₁ s₁ inode) (h₂ : FreshFile A f₂ s₂ inode)
    (hws : CarefulRun [] ws) (hrun₁ : runWrites A R inode s₁ ws = .ok t₁)
    (hrun₂ : runWrites A R inode s₂ ws = .ok t₂) (cnt off : Nat) (hb : off + cnt < 2 ^ 64)
    (rbuf : Memory) :
    nvmioRead t₁ inode rbuf cnt off = nvmioRead t₂ inode rbuf cnt off ∧
    ∀ ret rbuf', nvmioRead t₁ inode rbuf cnt off = .ok (ret, rbuf') → ret ≠ -1 →
      ∀ i < cnt, (∀ w ∈ ws, ¬ w.Covers (off + i)) → rbuf' i = 0 := by
  obtain ⟨f₁', hrep₁⟩ := h₁.fileRep.runWrites hws hrun₁
  obtain ⟨f₂', hrep₂⟩ := h₂.fileRep.runWrites hws hrun₂
  refine ⟨(hrep₁.read hb rbuf).trans (hrep₂.read hb rbuf).symm, ?_⟩
  intro ret rbuf' hread hret i hi hcov
  rw [hrep₁.read hb rbuf] at hread
  split_ifs at hread with hsize
  · obtain ⟨-, rfl⟩ : ↑cnt = ret ∧ _ = rbuf' := by simpa using hread
    simp only [if_pos hi]
    exact content_of_not_covered fun w hw => hcov w (by simpa using hw)
  · exact absurd (by simpa using hread.symm) fun hc : ret = -1 ∧ _ => hret hc.1

/-- A page is written, and ten bytes two pages on: the page between them reads as zeros, whatever
the free pages held. -/
theorem nvmioRead_stale_free_sample :
    ∃ t₁ t₂ rbuf, runWrites pageAllocator radixTree fileInode (staleFile 0)
        [⟨UInt8.ofNat, 4096, 0⟩, ⟨UInt8.ofNat, 10, 8192⟩] = .ok t₁ ∧
      runWrites pageAllocator radixTree fileInode (staleFile 7)
        [⟨UInt8.ofNat, 4096, 0⟩, ⟨UInt8.ofNat, 10, 8192⟩] = .ok t₂ ∧
      nvmioRead t₁ fileInode (fun _ => 1) 8 8188 = .ok (8, rbuf) ∧
      nvmioRead t₂ fileInode (fun _ => 1) 8 8188 = .ok (8, rbuf) ∧ ∀ i < 4, rbuf i = 0 := by
  have hws : CarefulRun [] [⟨UInt8.ofNat, 4096, 0⟩, ⟨UInt8.ofNat, 10, 8192⟩] :=
    ⟨⟨by decide, by decide, .inl rfl, .inl rfl, .inl le_rfl⟩,
      ⟨by decide, by decide, .inl rfl, .inr (by decide), .inr rfl⟩, trivial⟩
  have hrun (b : UInt8) : ∃ t, runWrites pageAllocator radixTree fileInode (staleFile b)
      [⟨UInt8.ofNat, 4096, 0⟩, ⟨UInt8.ofNat, 10, 8192⟩] = .ok t := by
    have hrep := (staleFile_fresh b).fileRep
    obtain ⟨s₁, hw₁, hlast₁⟩ := hrep.seekWrite_lasts (n := 62) hws.1.pos hws.1.bound radixTree
      ((staleFile_lasts b).mono (by decide))
    obtain ⟨f₁, hrep₁⟩ := hrep.seekWrite hws.1 hw₁
    obtain ⟨t, hw₂, -⟩ := hrep₁.seekWrite_lasts (n := 60) hws.2.1.pos hws.2.1.bound radixTree
      (hlast₁.mono (by decide))
    refine ⟨t, ?_⟩
    rw [runWrites, hw₁]
    exact runWrites_single hw₂
  obtain ⟨t₁, h₁⟩ := hrun 0
  obtain ⟨t₂, h₂⟩ := hrun 7
  obtain ⟨hsame, hzero⟩ := nvmioRead_stale_free (staleFile_fresh 0)
    (staleFile_fresh 7) hws h₁ h₂ 8 8188
    (by decide) fun _ => 1
  obtain ⟨f₁, hrep₁⟩ := (staleFile_fresh 0).fileRep.runWrites hws h₁
  have hread := hrep₁.read (show 8188 + 8 < 2 ^ 64 by decide) fun _ => 1
  rw [if_pos (by decide)] at hread
  refine ⟨t₁, t₂, _, h₁, h₂, hread, hsame ▸ hread, fun i hi => ?_⟩
  refine hzero _ _ hread (by decide) i (by omega) fun w hw hcov => ?_
  simp only [List.mem_cons, List.not_mem_nil, or_false] at hw
  obtain rfl | rfl := hw <;> simp only [WriteCall.Covers] at hcov <;> omega

/-- One byte is written behind an unwritten one, which then reads as what its page held. -/
theorem nvmioRead_stale :
    ∃ t₁ t₂ rbuf₁ rbuf₂,
      runWrites pageAllocator radixTree fileInode (staleFile 0) [⟨UInt8.ofNat, 1, 1⟩] = .ok t₁ ∧
      runWrites pageAllocator radixTree fileInode (staleFile 7) [⟨UInt8.ofNat, 1, 1⟩] = .ok t₂ ∧
      nvmioRead t₁ fileInode (fun _ => 0) 1 0 = .ok (1, rbuf₁) ∧
      nvmioRead t₂ fileInode (fun _ => 0) 1 0 = .ok (1, rbuf₂) ∧ rbuf₁ 0 = 0 ∧ rbuf₂ 0 = 7 := by
  obtain ⟨t₁, h₁⟩ := staleFile_write_ok 0 (w := ⟨UInt8.ofNat, 1, 1⟩) (by decide) (by decide)
    (by decide)
  obtain ⟨t₂, h₂⟩ := staleFile_write_ok 7 (w := ⟨UInt8.ofNat, 1, 1⟩) (by decide) (by decide)
    (by decide)
  obtain ⟨rbuf₁, hread₁, hbyte₁⟩ := (staleFile_fresh 0).stale (staleFile_body 0) h₁
  obtain ⟨rbuf₂, hread₂, hbyte₂⟩ := (staleFile_fresh 7).stale (staleFile_body 7) h₂
  exact ⟨t₁, t₂, rbuf₁, rbuf₂, runWrites_single h₁, runWrites_single h₂, hread₁, hread₂, hbyte₁,
    hbyte₂⟩

end TwoRuns

end Atfs
