import Atfs.Io.Read
import Atfs.Io.Supply

/-!
# What a write leaves in the file

The range of a write reads back as written. Around it the first page keeps what it held
in front of the write. Behind the write the last page should do the same, and does not: a
chunk of one page is not filled at all, and a longer one from the wrong place.
-/

namespace Atfs

open ByteMemory LinkedChain

/-! ## The range written -/

section ReadBack

variable {A : PageAllocator} {R : RadixTree} {f : Frontier} {s : State} {buf : Memory}
  {inode cnt fileOff : Nat}

/-- A write fails only for want of pages, and every later read inside its range that passes
the size check returns the bytes written. -/
theorem nvmioWrite_readBack (hpre : WritePre A f s inode cnt fileOff) :
    (∀ e, nvmioWrite A R s inode buf cnt fileOff = .error e → e = .noPages) ∧
    ∀ ret s', nvmioWrite A R s inode buf cnt fileOff = .ok (ret, s') →
      ∀ m', ChangesOnly (infoBytes inode) s'.mem m' →
      ∀ o n, fileOff ≤ o → o + n ≤ fileOff + cnt → o + n ≤ AtfsInode.iSize.get m' inode →
      ∀ rbuf, ∃ rbuf', nvmioRead { s' with mem := m' } inode rbuf n o = .ok (n, rbuf') ∧
        ∀ i < n, rbuf' i = buf (o - fileOff + i) := by
  refine ⟨fun e => nvmioWrite_error, ?_⟩
  intro ret s' h m' hm' o n ho hn hsize rbuf
  have hb := hpre.bound
  obtain ⟨rbuf', hread, hbuf⟩ := nvmioRead_spec (s := { s' with mem := m' }) (by omega) hsize rbuf
  refine ⟨rbuf', hread, fun i hi => ?_⟩
  rw [hbuf i, if_pos hi, fileByte_nvmioWrite hpre h hm' (by omega) (by omega)]
  congr 1
  omega

/-- 5000 bytes are written from position 5 on and read back across the page boundary. -/
theorem nvmioWrite_readBack_sample :
    ∃ ret s', nvmioWrite pageAllocator radixTree
        (fileState 8192 (fun _ _ => 0) fun _ => offsetNull) fileInode UInt8.ofNat 5000 5 =
          .ok (ret, s') ∧
      ∃ rbuf', nvmioRead s' fileInode (fun _ => 0) 10 4090 = .ok (10, rbuf') ∧
        ∀ i < 10, rbuf' i = UInt8.ofNat (4085 + i) := by
  have hmap : Mapped (fun _ => offsetNull) fileFrontier := fun k hk => absurd rfl hk
  obtain ⟨ret, s', h⟩ := fileState_write_ok 8192 (fun _ _ => 0) hmap (show 1 ≤ 5000 by omega)
    (show 5 + 5000 < 2 ^ 64 by omega) (by omega) UInt8.ofNat
  have hpre := fileState_writePre 8192 (fun _ _ => 0) hmap (show 1 ≤ 5000 by omega)
    (show 5 + 5000 < 2 ^ 64 by omega)
  have hsize : AtfsInode.iSize.get s'.mem fileInode = 8192 :=
    (nvmioWrite_inodeField hpre h AtfsInode.iSize (by decide)).trans (fileState_iSize (by omega))
  exact ⟨ret, s', h, (nvmioWrite_readBack hpre).2 ret s' h s'.mem (ChangesOnly.refl _ _) 4090 10
    (by omega) (by omega) (by omega) _⟩

end ReadBack

/-! ## The edges -/

/-- How many pages a write covers. -/
def pageCount (cnt fileOff : Nat) : Nat := (fileOff + cnt - 1) / 4096 - fileOff / 4096 + 1

/-- How many of them are in its last chunk. -/
def lastChunk (cnt fileOff : Nat) : Nat := (pageCount cnt fileOff - 1) % 64 + 1

/-- The file offsets of the first and of the last page of a write. -/
def firstPage (fileOff : Nat) : Nat := fileOff / 4096 * 4096
def lastPage (cnt fileOff : Nat) : Nat := (fileOff + cnt - 1) / 4096 * 4096

section Edges

variable {A : PageAllocator} {R : RadixTree} {f : Frontier} {s s' : State} {buf : Memory}
  {inode cnt fileOff ret : Nat}

/-- In front of the write its first page holds what the old page held. -/
theorem nvmioWrite_firstPage (hpre : WritePre A f s inode cnt fileOff)
    (h : nvmioWrite A R s inode buf cnt fileOff = .ok (ret, s')) :
    IsPage (s'.index inode (firstPage fileOff)) ∧ s'.index inode (firstPage fileOff) ∈ f.free ∧
      ∀ b < fileOff % 4096, s'.mem (s'.index inode (firstPage fileOff) + b) =
        if s.index inode (firstPage fileOff) ≠ offsetNull then
          s.mem (s.index inode (firstPage fileOff) + b)
        else s.mem (s'.index inode (firstPage fileOff) + b) := by
  obtain ⟨-, f', es, ts, hrun, -, hindex⟩ := nvmioWrite_spec hpre h
  have hpos := hpre.pos
  obtain ⟨i, q, hq, hpage, hi, hkey⟩ := hrun.page_at hpos hpre.bound (x := firstPage fileOff)
    le_rfl (by rw [firstPage]; omega)
  have hfirst : firstPage fileOff / 4096 * 4096 = firstPage fileOff := by
    rw [firstPage]
    omega
  obtain rfl : i = 0 := by
    rw [firstPage] at hi
    omega
  rw [hfirst] at hkey
  have hfront := hrun.written.front q hq
  rw [writeVars_offset, writeVars_startPage _ _ _ (by have := hpre.bound; omega)] at hfront
  rw [hindex, Function.update_self, hkey]
  exact ⟨hpage, (hrun.fresh q (List.mem_of_getElem? hq)).1, hfront⟩

/-- Behind the write its last page holds what its new page held before, or bytes found from
40 times the length of its last part on behind the start of the old page. -/
theorem nvmioWrite_lastPage (hpre : WritePre A f s inode cnt fileOff)
    (h : nvmioWrite A R s inode buf cnt fileOff = .ok (ret, s')) :
    IsPage (s'.index inode (lastPage cnt fileOff)) ∧
      s'.index inode (lastPage cnt fileOff) ∈ f.free ∧
      ∃ f' M, f'.free ⊆ f.free ∧ ChangesOnly (footprint f f') s.mem M ∧
      ∀ b < 4096, fileOff + cnt ≤ lastPage cnt fileOff + b →
        s'.mem (s'.index inode (lastPage cnt fileOff) + b) =
        if lastChunk cnt fileOff ≠ 1 ∧ s.index inode (lastPage cnt fileOff) ≠ offsetNull then
          M (s.index inode (lastPage cnt fileOff) + 40 * ((fileOff + cnt) % 4096) +
            (b - (fileOff + cnt) % 4096))
        else s.mem (s'.index inode (lastPage cnt fileOff) + b) := by
  obtain ⟨-, f', es, ts, hrun, -, hindex⟩ := nvmioWrite_spec hpre h
  have hpos := hpre.pos
  have hb := hpre.bound
  obtain ⟨i, q, hq, hpage, hi, hkey⟩ := hrun.page_at hpos hpre.bound (x := lastPage cnt fileOff)
    (by rw [lastPage]; omega) (by rw [lastPage]; omega)
  have hlast : lastPage cnt fileOff / 4096 * 4096 = lastPage cnt fileOff := by
    rw [lastPage]
    omega
  have hlen := hrun.length
  rw [writeVars_pageNums _ _ hpos hb] at hlen
  have hi' : i = (pagesOf es).length - 1 := by
    rw [lastPage] at hi
    omega
  rw [hlast] at hkey
  obtain ⟨M, hM, hback⟩ := hrun.written.back
  rw [← hi'] at hback
  rw [hindex, Function.update_self, hkey]
  refine ⟨hpage, (hrun.fresh q (List.mem_of_getElem? hq)).1, f', M, hrun.step.sub, hM, ?_⟩
  intro b hb4 hbehind
  have hcond : (pagesOf es).length % 64 ≠ 1 ↔ lastChunk cnt fileOff ≠ 1 := by
    rw [lastChunk, pageCount]
    omega
  have hkey' : fileOff / 4096 * 4096 + 4096 * i = lastPage cnt fileOff := by
    rw [← hlast, hi]
    ring
  have hmod : (fileOff % 4096 + cnt) % 4096 = (fileOff + cnt) % 4096 := by omega
  have htotal : (writeVars s.mem inode cnt fileOff).totalSize = cnt := rfl
  have hbytes := hback q hq b hb4
  rw [writeVars_offset, writeVars_startPage _ _ _ (by omega), hkey', htotal, hmod] at hbytes
  rw [hbytes (by omega)]
  exact if_congr (and_congr_left' hcond) rfl rfl

/-! ### A last chunk of one page -/

/-- Outside the range of the write its last page holds what the old page held. -/
def LastPageKept (s s' : State) (inode cnt fileOff : Nat) : Prop :=
  ∀ b < 4096, lastPage cnt fileOff + b < fileOff ∨ fileOff + cnt ≤ lastPage cnt fileOff + b →
    s'.mem (s'.index inode (lastPage cnt fileOff) + b) =
      s.mem (s.index inode (lastPage cnt fileOff) + b)

/-- A last page that is a chunk of its own keeps the bytes in front of the write. Those behind
it are left as the allocator handed them out. -/
theorem nvmioWrite_singlePage (hpre : WritePre A f s inode cnt fileOff)
    (hone : lastChunk cnt fileOff = 1) (hmap : s.index inode (lastPage cnt fileOff) ≠ offsetNull)
    (h : nvmioWrite A R s inode buf cnt fileOff = .ok (ret, s')) :
    (∀ b < 4096, lastPage cnt fileOff + b < fileOff →
      s'.mem (s'.index inode (lastPage cnt fileOff) + b) =
        s.mem (s.index inode (lastPage cnt fileOff) + b)) ∧
    ∀ b < 4096, fileOff + cnt ≤ lastPage cnt fileOff + b →
      s'.mem (s'.index inode (lastPage cnt fileOff) + b) =
        s.mem (s'.index inode (lastPage cnt fileOff) + b) := by
  have hpos := hpre.pos
  refine ⟨fun b hb hfront => ?_, fun b hb hbehind => ?_⟩
  · have hsame : lastPage cnt fileOff = firstPage fileOff := by
      rw [lastPage, firstPage] at *
      omega
    rw [hsame] at hmap hfront ⊢
    obtain ⟨-, -, hbytes⟩ := nvmioWrite_firstPage hpre h
    rw [hbytes b (by rw [firstPage] at hfront; omega), if_pos hmap]
  · obtain ⟨-, -, f', M, -, -, hbytes⟩ := nvmioWrite_lastPage hpre h
    rw [hbytes b hb hbehind, if_neg (by simp [hone])]

/-- The bodies of the free pages. -/
def freeBodies (f : Frontier) : Set Nat := {a | ∃ q ∈ f.free, a ∈ bodyBytes q}

theorem not_mem_freeBodies {p a : Nat} (hf : f.Holds A s.mem) (hp : IsPage p) (hpF : p ∉ f.free)
    (ha : a ∈ pageBytes p) : a ∉ freeBodies f := by
  rintro ⟨q, hq, haq⟩
  refine not_mem_bytesOf (A.rep_page hf.rep) hp hpF ha ⟨q, hq, ?_⟩
  rw [mem_bodyBytes] at haq
  rw [mem_pageBytes]
  omega

/-- What the free pages hold makes no difference to whether a write may be tried. -/
theorem WritePre.bodies {m' : Memory} (hpre : WritePre A f s inode cnt fileOff)
    (hm : ChangesOnly (freeBodies f) s.mem m') (hrep : A.Rep m' f.free) :
    WritePre A f { s with mem := m' } inode cnt fileOff := by
  obtain ⟨p, hp, hpF, -, hle, hle'⟩ := hpre.inodePage
  refine { hpre with holds := { hpre.holds with rep := hrep }, tail := ?_ }
  rw [← hpre.tail]
  refine Field.get_congr fun a ha => hm a (not_mem_freeBodies hpre.holds hp hpF ?_)
  rw [show sizeofAtfsInode = 216 from rfl] at hle'
  simp only [Field.bytes, AtfsInode.logTail_off, AtfsInode.logTail_size, Set.mem_Ico] at ha
  rw [mem_pageBytes]
  omega

/-- A write of one page puts it into the page that the allocator hands out. -/
theorem nvmioWrite_onePage {node cpu₁ : Nat} {m₁ : Memory}
    (hpre : WritePre A f s inode cnt fileOff) (hone : pageCount cnt fileOff = 1)
    (halloc : A.alloc s.mem s.currentCpu 1 = some (node, m₁, cpu₁))
    (h : nvmioWrite A R s inode buf cnt fileOff = .ok (ret, s')) :
    s'.index inode (lastPage cnt fileOff) = getNvmNode2pageAddr node := by
  obtain ⟨-, s₁, f', es, ts, evs, -, -, -, -, hrounds, hrun, -, hs'⟩ := nvmioWrite_run hpre h
  have hpos := hpre.pos
  have hb := hpre.bound
  have hnums : (writeVars s.mem inode cnt fileOff).pageNums = 1 := by
    rw [writeVars_pageNums _ _ hpos hb]
    rw [pageCount] at hone
    omega
  have hnum : (writeVars s.mem inode cnt fileOff).allocNum = 1 := by
    have := (writeVars s.mem inode cnt fileOff).allocNum_eq
    omega
  have hlen := hrun.length
  rw [hnums] at hlen
  obtain ⟨i, q, hq, -, -, hkey⟩ := hrun.page_at hpos hb (x := lastPage cnt fileOff)
    (by rw [lastPage]; omega) (by rw [lastPage]; omega)
  obtain ⟨hlt, -⟩ := List.getElem?_eq_some_iff.1 hq
  obtain rfl : i = 0 := by omega
  have hlast : lastPage cnt fileOff / 4096 * 4096 = lastPage cnt fileOff := by
    rw [lastPage]
    omega
  have hindex : s'.index inode (lastPage cnt fileOff) = q := by
    rw [hlast] at hkey
    refine (congrFun (congrFun (congrArg State.index hs') inode) _).trans ?_
    exact (congrFun (Function.update_self ..) _).trans hkey
  rw [hindex]
  -- the page is the first of the first round
  rw [writeRounds, if_pos (by omega)] at hrounds
  cases hrounds with
  | @cons E _ es _ hround =>
    have hpages : 0 < E.pages.length := by
      have hchunks := hrun.chunks
      cases hchunks with
      | chunk _ _ _ length => omega
    rw [pagesOf_cons, List.getElem?_append_left hpages] at hq
    obtain ⟨node', s₂, halloc', hnode⟩ := hround.head hq
    rw [hnum, PageAllocator.allocFreePages, halloc] at halloc'
    simp only [Except.ok.injEq, Prod.mk.injEq] at halloc'
    rw [hnode, halloc'.1]

/-- One page of a file is mapped to a page outside the free lists. -/
def onePage (key : Nat) : Nat → Nat := fun k => if k = key then pageOff 4098 else offsetNull

theorem mapped_onePage (key : Nat) : Mapped (onePage key) fileFrontier := by
  intro k hk
  rw [onePage] at hk ⊢
  split_ifs at hk ⊢
  · exact ⟨isPage_pageOff (by omega), pageOff_not_free (by omega),
      fun hc => absurd (pageOff_injective hc) (by decide)⟩
  · exact absurd rfl hk

/-- The bytes of a page that is still free are those of `body`. -/
theorem fileState_free_body {size : Nat} {body : Nat → Nat → UInt8} {index : Nat → Nat} {q o : Nat}
    (hq : q ∈ fileFrontier.free) (ho : o < 4096) :
    ∃ k < 4096, (fileState size body index).mem (q + o) = body k o := by
  obtain ⟨i, hi, hp⟩ := hq
  rw [gCpuNums] at hi
  obtain ⟨k, rfl, ⟨-, hlt⟩ | ⟨-, -, hlt⟩⟩ := mem_freeLists.1 hp
  · omega
  · have hk : k < 4096 := by omega
    exact ⟨k, hk, by rw [fileState_body ho, fileBody, if_neg (by omega)]⟩

/-- The page of a file that is mapped. -/
theorem fileState_onePage {size key : Nat} {body : Nat → Nat → UInt8} :
    (fileState size body (onePage key)).index fileInode key = pageOff 4098 := by
  rw [fileState]
  simp only [if_true]
  exact if_pos rfl

/-- A page of sevens of which a byte is overwritten. -/
def sevens : State := fileState 4096 (fun k _ => if k = 4098 then 7 else 0) (onePage 0)

theorem sevens_writePre : WritePre pageAllocator fileFrontier sevens fileInode 1 0 :=
  fileState_writePre _ _ (mapped_onePage 0) le_rfl (by omega)

theorem sevens_write_ok : ∃ ret s',
    nvmioWrite pageAllocator radixTree sevens fileInode UInt8.ofNat 1 0 = .ok (ret, s') :=
  fileState_write_ok _ _ (mapped_onePage 0) le_rfl (by omega) (by omega) _

theorem sevens_mapped : sevens.index fileInode (lastPage 1 0) ≠ offsetNull := by
  rw [show lastPage 1 0 = 0 by decide, sevens, fileState_onePage]
  exact (isPage_pageOff (by omega)).ne_offsetNull

variable (buf) in
/-- So whatever the free pages hold, the page is kept exactly when the write ends with it. With
the free pages as they are, a write of one page keeps it also if the page that the allocator hands
out holds the bytes behind the write already. -/
theorem lastPageKept_iff (hpre : WritePre A f s inode cnt fileOff)
    (hone : lastChunk cnt fileOff = 1) (hmap : s.index inode (lastPage cnt fileOff) ≠ offsetNull)
    (hrep : ∀ m', ChangesOnly (freeBodies f) s.mem m' → A.Rep m' f.free)
    (hok : ∀ m', ChangesOnly (freeBodies f) s.mem m' → ∃ ret s',
      nvmioWrite A R { s with mem := m' } inode buf cnt fileOff = .ok (ret, s')) :
    ((∀ m', ChangesOnly (freeBodies f) s.mem m' → ∀ ret s',
        nvmioWrite A R { s with mem := m' } inode buf cnt fileOff = .ok (ret, s') →
          LastPageKept { s with mem := m' } s' inode cnt fileOff) ↔
      (fileOff + cnt) % 4096 = 0) ∧
    (pageCount cnt fileOff = 1 → ∀ node m₁ cpu₁,
      A.alloc s.mem s.currentCpu 1 = some (node, m₁, cpu₁) → ∀ ret s',
        nvmioWrite A R s inode buf cnt fileOff = .ok (ret, s') →
          (LastPageKept s s' inode cnt fileOff ↔ (fileOff + cnt) % 4096 = 0 ∨
            ∀ b < 4096, fileOff + cnt ≤ lastPage cnt fileOff + b →
              s.mem (getNvmNode2pageAddr node + b) =
                s.mem (s.index inode (lastPage cnt fileOff) + b))) := by
  refine ⟨⟨fun hkept => ?_, fun hend m' hm ret s' h => ?_⟩,
    fun hpages node m₁ cpu₁ halloc ret s' h => ?_⟩
  · -- the last byte of every free page is made different from that of the old page
    by_contra hend
    obtain ⟨hp, hpF, -⟩ := hpre.mapped _ hmap
    generalize hold : s.index inode (lastPage cnt fileOff) = old at hp hpF
    classical
    obtain ⟨m', hm'⟩ : ∃ m' : Memory, ∀ a, m' a =
        if ∃ q ∈ f.free, a = q + 4095 then s.mem (old + 4095) + 1 else s.mem a := ⟨_, fun _ => rfl⟩
    have hm : ChangesOnly (freeBodies f) s.mem m' := fun a ha => by
      rw [hm', if_neg]
      rintro ⟨q, hq, rfl⟩
      exact ha ⟨q, hq, by rw [mem_bodyBytes]; omega⟩
    obtain ⟨ret, s', h⟩ := hok m' hm
    have hpre' := hpre.bodies hm (hrep m' hm)
    obtain ⟨-, hback⟩ := nvmioWrite_singlePage hpre' hone hmap h
    obtain ⟨-, hfree, -⟩ := nvmioWrite_lastPage hpre' h
    have hbehind : fileOff + cnt ≤ lastPage cnt fileOff + 4095 := by
      rw [lastPage]
      omega
    have hsame := hkept m' hm ret s' h 4095 (by omega) (.inr hbehind)
    have hold' : m' (old + 4095) = s.mem (old + 4095) :=
      hm _ (not_mem_freeBodies hpre.holds hp hpF (by rw [mem_pageBytes]; omega))
    rw [hback 4095 (by omega) hbehind] at hsame
    simp only [hold] at hsame
    rw [hold', hm', if_pos ⟨_, hfree, rfl⟩] at hsame
    have hne (x : UInt8) : x + 1 ≠ x := by grind
    exact hne _ hsame
  · obtain ⟨hfront, -⟩ := nvmioWrite_singlePage (hpre.bodies hm (hrep m' hm)) hone hmap h
    rintro b hb (hb' | hb')
    · exact hfront b hb hb'
    · have := hpre.pos
      rw [lastPage] at hb'
      omega
  · obtain ⟨hfront, hback⟩ := nvmioWrite_singlePage hpre hone hmap h
    rw [nvmioWrite_onePage hpre hpages halloc h] at hback
    constructor
    · intro hkept
      refine .inr fun b hb hbehind => ?_
      rw [← hback b hb hbehind, ← nvmioWrite_onePage hpre hpages halloc h]
      exact hkept b hb (.inr hbehind)
    · rintro (hend | hheld) b hb (hb' | hb')
      · exact hfront b hb hb'
      · have := hpre.pos
        rw [lastPage] at hb'
        omega
      · exact hfront b hb hb'
      · rw [nvmioWrite_onePage hpre hpages halloc h]
        exact (hback b hb hb').trans (hheld b hb hb')

/-- The allocator looks at no body of its pages. -/
theorem sevens_bodies {m' : Memory} (hm : ChangesOnly (freeBodies fileFrontier) sevens.mem m') :
    Stocked pageAllocator m' fileFrontier.free 64 := by
  refine fileState_stocked.congr_nodes pageAllocator_follows (fun a ha => hm a ?_) fun p hp a ha =>
    hm a ?_
  all_goals
    rintro ⟨q, hq, haq⟩
    have hq' := pageAllocator.rep_page sevens_writePre.holds.rep q hq
    rw [mem_bodyBytes] at haq
  · have := hq'.bounds
    rw [pageListBytes, Set.mem_Ico] at ha
    omega
  · have hp' := pageAllocator.rep_page sevens_writePre.holds.rep p hp
    rw [nodeWords, Set.mem_Ico] at ha
    by_cases hpq : p = q
    · omega
    · have := hp'.apart hq' hpq
      omega

theorem sevens_bodies_ok {m' : Memory} (hm : ChangesOnly (freeBodies fileFrontier) sevens.mem m') :
    ∃ ret s', nvmioWrite pageAllocator radixTree { sevens with mem := m' } fileInode
      UInt8.ofNat 1 0 =
      .ok (ret, s') := by
  have hstock : Stocked pageAllocator m' fileFrontier.free (63 + 1) := sevens_bodies hm
  obtain ⟨s', hwrite, -⟩ := nvmioWrite_lasts (n := 0)
    (sevens_writePre.bodies hm hstock.rep) radixTree UInt8.ofNat
    ((hstock.lasts pageAllocator_follows).mono (by decide))
  exact ⟨_, s', hwrite⟩

theorem sevens_alloc_ok : ∃ node m₁ cpu₁,
    pageAllocator.alloc sevens.mem sevens.currentCpu 1 = some (node, m₁, cpu₁) := by
  have hstock : Stocked pageAllocator sevens.mem fileFrontier.free (63 + 1) := fileState_stocked
  obtain ⟨node, s₁, -, halloc, -⟩ := hstock.alloc pageAllocator_follows le_rfl (by decide)
  rw [PageAllocator.allocFreePages] at halloc
  cases h : pageAllocator.alloc sevens.mem sevens.currentCpu 1 with
  | none => simp [h] at halloc
  | some r => exact ⟨_, _, _, rfl⟩

/-- One byte is written in front of the sevens. -/
theorem lastPageKept_iff_sevens :
    ((∀ m', ChangesOnly (freeBodies fileFrontier) sevens.mem m' → ∀ ret s',
        nvmioWrite pageAllocator radixTree { sevens with mem := m' } fileInode UInt8.ofNat 1 0 =
          .ok (ret, s') → LastPageKept { sevens with mem := m' } s' fileInode 1 0) ↔
      (0 + 1) % 4096 = 0) ∧
    ∃ node m₁ cpu₁ ret s',
      pageAllocator.alloc sevens.mem sevens.currentCpu 1 = some (node, m₁, cpu₁) ∧
      nvmioWrite pageAllocator radixTree sevens fileInode UInt8.ofNat 1 0 = .ok (ret, s') ∧
      (LastPageKept sevens s' fileInode 1 0 ↔ (0 + 1) % 4096 = 0 ∨
        ∀ b < 4096, 0 + 1 ≤ lastPage 1 0 + b → sevens.mem (getNvmNode2pageAddr node + b) =
          sevens.mem (sevens.index fileInode (lastPage 1 0) + b)) := by
  obtain ⟨node, m₁, cpu₁, halloc⟩ := sevens_alloc_ok
  obtain ⟨ret, s', h⟩ := sevens_write_ok
  obtain ⟨hall, hpage⟩ := lastPageKept_iff UInt8.ofNat sevens_writePre (by decide)
    sevens_mapped (fun _ hm => (sevens_bodies hm).rep) fun _ hm => sevens_bodies_ok hm
  exact ⟨hall, node, m₁, cpu₁, ret, s', halloc, h, hpage (by decide) node m₁ cpu₁ halloc ret s' h⟩

/-- A byte is written to the front of a page of sevens: the rest of the page is lost. -/
theorem lastPageKept_fails :
    ∃ ret s', nvmioWrite pageAllocator radixTree sevens fileInode UInt8.ofNat 1 0 = .ok (ret, s') ∧
      ¬ LastPageKept sevens s' fileInode 1 0 := by
  obtain ⟨ret, s', h⟩ := sevens_write_ok
  refine ⟨ret, s', h, fun hkept => ?_⟩
  have hlast : lastPage 1 0 = 0 := by decide
  have hmap : sevens.index fileInode 0 = pageOff 4098 := fileState_onePage
  have hnew := (nvmioWrite_singlePage sevens_writePre (by decide) sevens_mapped h).2 1 (by omega)
    (by omega)
  have hold := hkept 1 (by omega) (.inr (by omega))
  obtain ⟨-, hfree, -⟩ := nvmioWrite_lastPage sevens_writePre h
  rw [hlast] at hnew hold hfree
  obtain ⟨k, hk, hstale⟩ : ∃ k < 4096, sevens.mem (s'.index fileInode 0 + 1) =
      if k = 4098 then 7 else 0 := fileState_free_body hfree (by omega)
  have hseven : sevens.mem (pageOff 4098 + 1) = 7 := by
    rw [sevens, fileState_body (by omega), fileBody, if_neg (by omega), if_pos rfl]
  rw [hnew, hmap, hseven, hstale, if_neg (by omega)] at hold
  exact absurd hold (by decide)

/-! ### A longer last chunk -/

/-- In front of the write the first page holds what the old page held, and behind it the last. -/
def EdgesKept (s s' : State) (inode cnt fileOff : Nat) : Prop :=
  (s.index inode (firstPage fileOff) ≠ offsetNull → ∀ b < fileOff % 4096,
    s'.mem (s'.index inode (firstPage fileOff) + b) =
      s.mem (s.index inode (firstPage fileOff) + b)) ∧
  ((fileOff + cnt) % 4096 ≠ 0 → s.index inode (lastPage cnt fileOff) ≠ offsetNull →
    ∀ b < 4096, (fileOff + cnt) % 4096 ≤ b →
      s'.mem (s'.index inode (lastPage cnt fileOff) + b) =
        s.mem (s.index inode (lastPage cnt fileOff) + b))

/-- Where the code looks for the bytes behind the write. -/
def fillSource (old cnt fileOff b : Nat) : Nat :=
  old + 40 * ((fileOff + cnt) % 4096) + (b - (fileOff + cnt) % 4096)

/-- These bytes are in use, so the write does not change them. -/
def SourceInUse (f : Frontier) (old cnt fileOff : Nat) : Prop :=
  ∀ b < 4096, (fileOff + cnt) % 4096 ≤ b → fillSource old cnt fileOff b ∉ bytesOf f.free ∧
    fillSource old cnt fileOff b ∉ tailBytes f.page f.tail

/-- Behind a longer last chunk stand the bytes of the source. -/
theorem nvmioWrite_longChunk (hpre : WritePre A f s inode cnt fileOff)
    (hlong : 2 ≤ lastChunk cnt fileOff)
    (h : nvmioWrite A R s inode buf cnt fileOff = .ok (ret, s'))
    (hmap : s.index inode (lastPage cnt fileOff) ≠ offsetNull)
    (hend : (fileOff + cnt) % 4096 ≠ 0)
    (huse : SourceInUse f (s.index inode (lastPage cnt fileOff)) cnt fileOff) {b : Nat}
    (hb : b < 4096) (hb' : (fileOff + cnt) % 4096 ≤ b) :
    s'.mem (s'.index inode (lastPage cnt fileOff) + b) =
      s.mem (fillSource (s.index inode (lastPage cnt fileOff)) cnt fileOff b) := by
  obtain ⟨-, -, f', M, hsub, hM, hbytes⟩ := nvmioWrite_lastPage hpre h
  have hbehind : fileOff + cnt ≤ lastPage cnt fileOff + b := by
    rw [lastPage]
    omega
  rw [hbytes b hb hbehind, if_pos ⟨by omega, hmap⟩]
  refine hM _ ?_
  obtain ⟨hfree, htail⟩ := huse b hb hb'
  have hold := (hpre.mapped _ hmap).1.bounds
  rintro ((hW | ⟨q, hq, hW⟩) | hW)
  · rcases allocatorBytes_subset hW with hW | hW
    · rw [mem_metadata] at hW
      omega
    · exact hfree hW
  · exact hfree ⟨q, hq.1, hW⟩
  · exact htail hW

/-- The edges are kept when the write ends with its last page, finds no old one there, or copies
from a source that is in use and holds the bytes behind the write. With the source in use they are
kept only then. -/
theorem edgesKept_iff (hpre : WritePre A f s inode cnt fileOff) (hlong : 2 ≤ lastChunk cnt fileOff)
    (h : nvmioWrite A R s inode buf cnt fileOff = .ok (ret, s')) :
    ((fileOff + cnt) % 4096 = 0 ∨ s.index inode (lastPage cnt fileOff) = offsetNull ∨
      (SourceInUse f (s.index inode (lastPage cnt fileOff)) cnt fileOff ∧
        ∀ b < 4096, (fileOff + cnt) % 4096 ≤ b →
          s.mem (fillSource (s.index inode (lastPage cnt fileOff)) cnt fileOff b) =
            s.mem (s.index inode (lastPage cnt fileOff) + b)) →
      EdgesKept s s' inode cnt fileOff) ∧
    (SourceInUse f (s.index inode (lastPage cnt fileOff)) cnt fileOff →
      EdgesKept s s' inode cnt fileOff →
        (fileOff + cnt) % 4096 = 0 ∨ s.index inode (lastPage cnt fileOff) = offsetNull ∨
        ∀ b < 4096, (fileOff + cnt) % 4096 ≤ b →
          s.mem (fillSource (s.index inode (lastPage cnt fileOff)) cnt fileOff b) =
            s.mem (s.index inode (lastPage cnt fileOff) + b)) := by
  have hfront : s.index inode (firstPage fileOff) ≠ offsetNull → ∀ b < fileOff % 4096,
      s'.mem (s'.index inode (firstPage fileOff) + b) =
        s.mem (s.index inode (firstPage fileOff) + b) := by
    intro hmap b hb
    obtain ⟨-, -, hbytes⟩ := nvmioWrite_firstPage hpre h
    rw [hbytes b hb, if_pos hmap]
  constructor
  · rintro (h0 | h0 | ⟨huse, hsame⟩)
    · exact ⟨hfront, fun hc => absurd h0 hc⟩
    · exact ⟨hfront, fun _ hc => absurd h0 hc⟩
    · refine ⟨hfront, fun hend hmap b hb hb' => ?_⟩
      rw [nvmioWrite_longChunk hpre hlong h hmap hend huse hb hb']
      exact hsame b hb hb'
  · intro huse hkept
    by_cases hend : (fileOff + cnt) % 4096 = 0
    · exact .inl hend
    · by_cases hmap : s.index inode (lastPage cnt fileOff) = offsetNull
      · exact .inr (.inl hmap)
      · refine .inr (.inr fun b hb hb' => ?_)
        rw [← nvmioWrite_longChunk hpre hlong h hmap hend huse hb hb']
        exact hkept.2 hend hmap b hb hb'

/-- Two pages of a file of which the second, mapped to bytes that count up, is overwritten in
front. -/
def counting : State := fileState 8192 (fun _ o => UInt8.ofNat o) (onePage 4096)

theorem counting_writePre : WritePre pageAllocator fileFrontier counting fileInode 4097 0 :=
  fileState_writePre _ _ (mapped_onePage 4096) (by omega) (by omega)

theorem counting_write_ok : ∃ ret s',
    nvmioWrite pageAllocator radixTree counting fileInode UInt8.ofNat 4097 0 = .ok (ret, s') :=
  fileState_write_ok _ _ (mapped_onePage 4096) (by omega) (by omega) (by omega) _

theorem counting_mapped : counting.index fileInode (lastPage 4097 0) = pageOff 4098 := by
  rw [show lastPage 4097 0 = 4096 by decide]
  exact fileState_onePage

/-- The source is the old page itself. -/
theorem counting_sourceInUse :
    SourceInUse fileFrontier (counting.index fileInode (lastPage 4097 0)) 4097 0 := by
  rw [counting_mapped]
  intro b hb hb'
  have hp : IsPage (pageOff 4098) := isPage_pageOff (by omega)
  have hmem : fillSource (pageOff 4098) 4097 0 b ∈ pageBytes (pageOff 4098) := by
    rw [fillSource, mem_pageBytes]
    omega
  refine ⟨not_mem_bytesOf (fun q hq => pageAllocator.rep_page counting_writePre.holds.rep q hq) hp
    (pageOff_not_free (by omega)) hmem, fun htail => ?_⟩
  have hlog : pageOff 4098 = fileLog + 4136 := by
    rw [fileLog, pageOff_eq, pageOff_eq]
  rw [mem_pageBytes] at hmem
  rw [fileFrontier, mem_tailBytes] at htail
  simp only at htail
  omega

theorem edgesKept_iff_counting : ∃ ret s',
    nvmioWrite pageAllocator radixTree counting fileInode UInt8.ofNat 4097 0 = .ok (ret, s') ∧
      (EdgesKept counting s' fileInode 4097 0 →
        (0 + 4097) % 4096 = 0 ∨ counting.index fileInode (lastPage 4097 0) = offsetNull ∨
        ∀ b < 4096, (0 + 4097) % 4096 ≤ b →
          counting.mem (fillSource (counting.index fileInode (lastPage 4097 0)) 4097 0 b) =
            counting.mem (counting.index fileInode (lastPage 4097 0) + b)) := by
  obtain ⟨ret, s', h⟩ := counting_write_ok
  exact ⟨ret, s', h, (edgesKept_iff counting_writePre (by decide) h).2 counting_sourceInUse⟩

/-- A page and a byte are written: behind the byte stand bytes from 40 places further on. -/
theorem edgesKept_fails : ∃ ret s',
    nvmioWrite pageAllocator radixTree counting fileInode UInt8.ofNat 4097 0 = .ok (ret, s') ∧
      ¬ EdgesKept counting s' fileInode 4097 0 := by
  obtain ⟨ret, s', h⟩ := counting_write_ok
  refine ⟨ret, s', h, fun hkept => ?_⟩
  have hne : counting.index fileInode (lastPage 4097 0) ≠ offsetNull := by
    rw [counting_mapped]
    exact (isPage_pageOff (by omega)).ne_offsetNull
  have hnew := nvmioWrite_longChunk counting_writePre (by decide) h hne (by omega)
    counting_sourceInUse (b := 1) (by omega) (by omega)
  have hold := hkept.2 (by omega) hne 1 (by omega) (by omega)
  have hcount (o : Nat) (ho : o < 4096) : counting.mem (pageOff 4098 + o) = UInt8.ofNat o := by
    rw [counting, fileState_body ho, fileBody, if_neg (by omega)]
  have hsource : fillSource (pageOff 4098) 4097 0 1 = pageOff 4098 + 40 := rfl
  rw [hnew, counting_mapped, hsource, hcount 40 (by omega), hcount 1 (by omega)] at hold
  exact absurd hold (by decide)

end Edges

end Atfs
