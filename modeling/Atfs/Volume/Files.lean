import Atfs.Volume.Live
import Atfs.Volume.PagedFile

/-!
# The files of a volume

The index of a file has, for the pages of the file, pages of its log. Calls on the files,
collections of their logs and invalidations of pages that no index has any more leave it so, and of
all that only the calls on a file change what its users see.
-/

namespace Atfs

open ByteMemory LinkedChain LabelledRun

/-! ## The view of a file -/

/-- The file that the inode, its index and the pages stand for. -/
def fileOf (s : State) (inode : Nat) : PagedFile where
  pos := AtfsInode.fileOff.get s.mem inode
  size := AtfsInode.iSize.get s.mem inode
  held := {k | s.index inode (k * 4096) ≠ offsetNull}
  byte := fileByte s inode
  hole := fun _ hx => if_neg hx

section View

variable {A : PageAllocator} {R : RadixTree} {f f' : Frontier} {s s' : State} {m m' : Memory}
  {inode r cnt offset ret : Nat} {buf : Memory} {es : List LogEntry} {L : List LogPage}
  {last : LogPage}

/-- The same pages with the same bytes are the same file. -/
theorem fileOf_eq (hword : ∀ g : Field 216, g.off + g.size ≤ 56 ∨ 72 ≤ g.off →
      g.get s'.mem inode = g.get s.mem inode)
    (hindex : s'.index inode = s.index inode)
    (hbody : ∀ key, s.index inode key ≠ offsetNull →
      Set.EqOn s'.mem s.mem (bodyBytes (s.index inode key))) :
    fileOf s' inode = fileOf s inode := by
  refine PagedFile.ext (hword AtfsInode.fileOff (.inr (by simp)))
    (hword AtfsInode.iSize (.inl (by simp))) ?_
    (funext fun x => ?_)
  · simp only [fileOf, hindex]
  · refine fileByte_eq_of_page (congrFun hindex _) fun hmap => hbody _ hmap ?_
    rw [mem_bodyBytes]
    omega

/-- Setting the size and the position of a file. -/
theorem fileOf_info (hm : ChangesOnly (infoBytes inode) s.mem m')
    (hpage : ∀ key, s.index inode key ≠ offsetNull → Disjoint (infoBytes inode)
      (bodyBytes (s.index inode key))) :
    fileOf { s with mem := m' } inode = { fileOf s inode with
      pos := AtfsInode.fileOff.get m' inode
      size := AtfsInode.iSize.get m' inode } := by
  refine PagedFile.ext rfl rfl rfl (funext fun x => ?_)
  refine fileByte_eq_of_page (t := { s with mem := m' }) rfl fun hmap => hm.eqOn (hpage _ hmap) ?_
  rw [mem_bodyBytes]
  omega

/-- `nvmio_read` of a file. -/
theorem nvmioRead_fileOf (s : State) (inode : Nat) (hb : offset + cnt < 2 ^ 64) (rbuf : Memory) :
    ∃ ret out, nvmioRead s inode rbuf cnt offset = .ok (ret, out) ∧
      (fileOf s inode).read rbuf cnt offset = .bytes ret out := by
  by_cases hsize : offset + cnt ≤ (fileOf s inode).size
  · obtain ⟨out, hread, hout⟩ := nvmioRead_spec hb hsize rbuf
    refine ⟨cnt, out, hread, ?_⟩
    rw [PagedFile.read, if_pos hsize]
    exact congrArg _ (funext fun i => (hout i).symm)
  · refine ⟨-1, rbuf, nvmioRead_oversize hb (not_le.1 hsize) rbuf, ?_⟩
    rw [PagedFile.read, if_neg hsize]

/-- `nvmio_write` overwrites the file. -/
theorem Appended.overwritten (h : Ready A f s inode) (ha : Appended A inode cnt offset f f' s s' es)
    (hb : offset + cnt < 2 ^ 64) (hpage : InodePage f inode r) (hne : ∀ key, s.index inode key ≠ r)
    (hrun : nvmioWrite A R s inode buf cnt offset = .ok (ret, s')) :
    (fileOf s inode).Overwritten buf cnt offset (fileOf s' inode) := by
  have hodd : cnt = 0 → offset % 4096 ≠ 0 := by
    rintro rfl
    exact offset_ne_of_nvmioWrite_zero h.holds h.tail (by omega) hrun
  have hlen := ha.length_pagesOf hb hodd
  have hkey (k : Nat) : (∃ i < (pagesOf es).length, k * 4096 = firstPage offset + 4096 * i) ↔
      offset / 4096 ≤ k ∧ k * 4096 < offset + cnt := by
    rw [hlen, firstPage]
    constructor
    · rintro ⟨i, hi, hk⟩
      omega
    · rintro ⟨hk, hk'⟩
      exact ⟨k - offset / 4096, by omega, by omega⟩
  have hold {k : Nat} (hk : k < offset / 4096 ∨ offset + cnt ≤ k * 4096) :
      s'.index inode (k * 4096) = s.index inode (k * 4096) := by
    refine ha.outside _ fun i hi hc => ?_
    have := (hkey k).1 ⟨i, hi, hc⟩
    omega
  refine ⟨fun k => ?_, fun x hx hx' => ?_, fun hpos hheld x hx hfirst => ?_, fun x hx => ?_⟩
  · by_cases hk : offset / 4096 ≤ k ∧ k * 4096 < offset + cnt
    · obtain ⟨i, hi, hk'⟩ := (hkey k).2 hk
      have hq := ha.inside i _ _ (List.getElem?_eq_getElem hi) hk'
      have hmem := List.getElem_mem hi
      refine iff_of_true ?_ (.inr hk)
      show s'.index inode (k * 4096) ≠ offsetNull
      rw [hq]
      exact (A.rep_page h.holds.rep _ (ha.fresh _ hmem).1).ne_offsetNull
    · show s'.index inode (k * 4096) ≠ offsetNull ↔ s.index inode (k * 4096) ≠ offsetNull ∨ _
      rw [hold (by omega), or_iff_left hk]
  · exact fileByte_nvmioWrite (h.writePre (by omega) hb) hrun (ChangesOnly.refl _ _) hx hx'
  · obtain ⟨hp, -, hbytes⟩ := nvmioWrite_firstPage (h.writePre hpos hb) hrun
    have hmod : firstPage offset = x / 4096 * 4096 := by rw [firstPage, hfirst]
    have hheld : s.index inode (firstPage offset) ≠ offsetNull := hheld
    have hbyte := hbytes (x % 4096) (by omega)
    rw [if_pos hheld] at hbyte
    rw [hmod] at hp hheld hbyte
    simp only [fileOf, fileByte, if_pos hp.ne_offsetNull, if_pos hheld]
    exact hbyte
  · refine fileByte_eq_of_page (hold (by omega)) fun hmap => ?_
    obtain ⟨ts, hstep⟩ := ha.frame
    obtain ⟨hq, hqF, hqT⟩ := h.mapped _ hmap
    refine hstep.keeps h.holds hq hqF hqT (by rw [mem_pageBytes]; omega) fun hc => ?_
    obtain ⟨hp, -, -, hle, hle'⟩ := hpage
    rw [show sizeofAtfsInode = 216 from rfl] at hle'
    have := hq.apart hp (hne _)
    simp only [Field.bytes, AtfsInode.logTail_off, AtfsInode.logTail_size, Set.mem_Ico] at hc
    omega

/-- The log of an inode of which other words are set. -/
theorem LogOf.setInode (h : LogOf A inode r m f L last) (hm : ChangesOnly (inodeBytes inode) m m')
    (hhead : AtfsInode.logHead.get m' inode = AtfsInode.logHead.get m inode)
    (htail : AtfsInode.logTail.get m' inode = AtfsInode.logTail.get m inode) :
    LogOf A inode r m' f L last := by
  refine ⟨{ h.holds with rep := A.rep_congr h.holds.rep (hm.eqOn ?_) }, ?_, htail.trans h.tail,
    h.inodeIn, h.inUse, h.apart⟩
  · exact h.inodeIn.apart (A.rep_page h.holds.rep) h.inUse
  rw [hhead]
  refine h.log.congr (fun q hq => hm.eqOn (h.inodeIn.disjoint_page ?_ ?_)) h.log.inUse rfl rfl
  · obtain ⟨P, hP, hqP⟩ := mem_owned.1 hq
    exact (h.log.rep P hP).isPage_own q hqP
  · rintro rfl
    exact h.apart hq

end View

/-! ## The index and the logs -/

namespace Volume

/-- Every file has its log, and its index has pages of that log, each for the page of the file it
is. -/
structure Filed (A : PageAllocator) (F : Set Nat) (logs : Nat → FileLog) (v : Volume) : Prop where
  sound : v.Sound A F logs
  indexed : ∀ x ∈ v.files, ∀ key, v.state.index x key ≠ offsetNull → key % 4096 = 0 ∧
    LiveAt (entriesIn (logs x).all) (key / 4096) (v.state.index x key)
  unindexed : ∀ x, x ∉ v.files → ∀ key, v.state.index x key = offsetNull

section Filed

variable {A : PageAllocator} {R : RadixTree} {F F' : Set Nat} {logs logs' : Nat → FileLog}
  {v : Volume} {s : State} {x y key cnt offset ret : Nat} {buf : Memory} {m' : Memory}

theorem Filed.mem_own (h : v.Filed A F logs) (hx : x ∈ v.files)
    (hkey : v.state.index x key ≠ offsetNull) :
    v.state.index x key ∈ (logs x).own := (h.indexed x hx key hkey).2.mem_own

theorem Filed.index_ne_home (h : v.Filed A F logs) (hx : x ∈ v.files) (hy : y ∈ v.files)
    (key : Nat) :
    v.state.index x key ≠ (logs y).home := by
  intro hc
  obtain ⟨hpage, -, hown⟩ := h.sound.home _ (h.sound.homes y hy)
  by_cases hkey : v.state.index x key = offsetNull
  · exact hpage.ne_offsetNull (hc.symm.trans hkey)
  · exact hown x hx (hc ▸ h.mem_own hx hkey)

theorem Filed.inodePage (h : v.Filed A F logs) (hx : x ∈ v.files) :
    InodePage ((logs x).frontier F) x (logs x).home := by
  have hlog := h.sound.log x hx
  refine ⟨hlog.inodeIn.1, hlog.inUse, ?_, hlog.inodeIn.2⟩
  intro hc
  have hc : (logs x).home = (logs x).last.page := hc
  exact hlog.apart (hc ▸ mem_owned_page (by simp))

/-- A file is ready for a call. -/
theorem Filed.ready (h : v.Filed A F logs) (hx : x ∈ v.files) :
    Ready A ((logs x).frontier F) v.state x := by
  have hlog := h.sound.log x hx
  refine ⟨hlog.holds, hlog.tail, ⟨(logs x).home, h.inodePage hx⟩, fun key hkey => ?_⟩
  have hown := h.mem_own hx hkey
  refine ⟨h.sound.isPage_own hx _ hown, h.sound.own_notFree hx _ hown, ?_⟩
  intro hc
  have hc : v.state.index x key = (logs x).last.page := hc
  obtain ⟨P, hP, hq⟩ := mem_pagesOf_entriesIn.1 (h.indexed x hx key hkey).2.mem_pagesOf
  exact page_notMem_pagesOf hlog.log.nodup (show (logs x).last ∈ (logs x).all by simp [FileLog.all])
    hP (hc ▸ hq)

/-- The words of the inode are on no page of the file. -/
theorem Filed.disjoint_inode (h : v.Filed A F logs) (hx : x ∈ v.files) (hy : y ∈ v.files)
    (hkey : v.state.index x key ≠ offsetNull) : Disjoint (inodeBytes y)
    (bodyBytes (v.state.index x key)) := by
  refine ((h.sound.log y hy).inodeIn.disjoint_page (h.sound.isPage_own hx _ (h.mem_own hx hkey))
    (h.index_ne_home hx hy key)).mono_right fun a ha => ?_
  rw [mem_bodyBytes] at ha
  rw [mem_pageBytes]
  omega

/-- A file whose pages and inode a call leaves. -/
theorem Filed.fileOf_kept (h : v.Filed A F logs) (hy : y ∈ v.files)
    (hindex : s.index y = v.state.index y)
    (hkeep : (∀ q ∈ (logs y).own, Set.EqOn s.mem v.state.mem (pageBytes q)) ∧
      Set.EqOn s.mem v.state.mem (inodeBytes y)) : fileOf s y = fileOf v.state y := by
  refine fileOf_eq (fun g _ => Field.get_congr fun a ha => hkeep.2 ?_) hindex fun key hkey => ?_
  · have hfits := g.fits
    rw [Field.bytes, Set.mem_Ico] at ha
    rw [inodeBytes, Set.mem_Ico]
    omega
  · refine (hkeep.1 _ (h.mem_own hy hkey)).mono fun a ha => ?_
    rw [mem_bodyBytes] at ha
    rw [mem_pageBytes]
    omega

/-- A call for a file changes no other file. -/
theorem Filed.fileOf_other (h : v.Filed A F logs) (hx : x ∈ v.files) (hy : y ∈ v.files)
    (hyx : y ≠ x) (hindex : s.index y = v.state.index y)
    (hframe : ChangesOnly (reachBytes F {q | q ∈ (logs x).own} x) v.state.mem s.mem) :
    fileOf s y = fileOf v.state y :=
  h.fileOf_kept hy hindex (h.sound.keeps_other hx hy hyx hframe)

/-! ### Calls on a file -/

theorem infoBytes_subset_inodeBytes : infoBytes x ⊆ inodeBytes x :=
    fun _ ha => infoBytes_subset (.inl ha)

theorem changesOnly_info (hm : ChangesOnly (infoBytes x) v.state.mem m') :
    ChangesOnly (reachBytes F {q | q ∈ (logs x).own} x) v.state.mem m' :=
  hm.mono fun _ ha => .inr (infoBytes_subset_inodeBytes ha)

/-- Setting the size and the position of a file leaves the logs. -/
theorem Sound.info (h : v.Sound A F logs) (hx : x ∈ v.files)
    (hm : ChangesOnly (infoBytes x) v.state.mem m') :
    Volume.Sound A F logs ⟨{ v.state with mem := m' }, v.homes, v.files⟩ := by
  have hinode : ChangesOnly (inodeBytes x) v.state.mem m' := hm.mono infoBytes_subset_inodeBytes
  have hlog := (h.log x hx).setInode hinode (field_info hm (.inr (.inl (by simp))))
    (logTail_congr hm)
  have hsound : Volume.Sound A F (Function.update logs x (logs x)) ⟨{ v.state with mem := m' },
    v.homes, v.files⟩ :=
    h.replace (U := {q | q ∈ (logs x).own}) hlog (h.homes x hx)
      (fun y hy => (em (y = x)).imp_right fun hyx => ⟨hy, hyx⟩)
      (h.isPage_own hx) (fun y hy hyx q hq hc => h.disjoint y hy x hx hyx hq hc)
      (fun p hp => (h.home p hp).2.2 x hx) (fun q hq => hq) (changesOnly_info hm)
      (fun y hy hyx => h.apart x hx y hy (Ne.symm hyx)) (h.joined x hx) fun T _ _ => rfl
  rwa [Function.update_eq_self] at hsound

/-- Setting the size and the position of a file. -/
theorem Filed.info (h : v.Filed A F logs) (hx : x ∈ v.files)
    (hm : ChangesOnly (infoBytes x) v.state.mem m') :
    Volume.Filed A F logs ⟨{ v.state with mem := m' }, v.homes, v.files⟩ ∧
      (fileOf { v.state with mem := m' } x = { fileOf v.state x with
        pos := AtfsInode.fileOff.get m' x
        size := AtfsInode.iSize.get m' x }) ∧
      ∀ y ∈ v.files, y ≠ x → fileOf { v.state with mem := m' } y = fileOf v.state y := by
  refine ⟨⟨h.sound.info hx hm, h.indexed, h.unindexed⟩, fileOf_info hm fun key hkey => ?_,
    fun y hy hyx => ?_⟩
  · exact (h.disjoint_inode hx hx hkey).mono_left infoBytes_subset_inodeBytes
  · exact h.fileOf_other hx hy hyx rfl (changesOnly_info hm)

/-- `nvmio_write` for a file. -/
theorem Filed.nvmioWrite (h : v.Filed A F logs) (hx : x ∈ v.files) (hb : offset + cnt < 2 ^ 64)
    (hrun : nvmioWrite A R v.state x buf cnt offset = .ok (ret, s)) :
    ret = cnt ∧ (∃ F' logs', Volume.Filed A F' logs' ⟨s, v.homes, v.files⟩ ∧
        ∃ f' es, Appended A x cnt offset ((logs x).frontier F) f' v.state s es ∧
          entriesIn (logs' x).all = entriesIn (logs x).all ++ es) ∧
      (fileOf v.state x).Overwritten buf cnt offset (fileOf s x) ∧
      viewOf s.mem x = viewOf v.state.mem x ∧
      ∀ y ∈ v.files, y ≠ x → fileOf s y = fileOf v.state y := by
  have hready := h.ready hx
  have hlog := h.sound.log x hx
  obtain ⟨hret, f', f₂, L', last', evs, s₁, es, hgrows, hmem, htrace, hnew, ha⟩ :=
    hlog.appended hready hb hrun
  obtain ⟨hsound, hframe⟩ := h.sound.grow hx hgrows hmem htrace
  have hodd : cnt = 0 → offset % 4096 ≠ 0 := by
    rintro rfl
    exact offset_ne_of_nvmioWrite_zero hready.holds hready.tail (by omega) hrun
  have hall : entriesIn (FileLog.all ⟨(logs x).home, L', last'⟩) = entriesIn (logs x).all ++ es :=
    hnew.entriesIn
  refine ⟨hret, ⟨_, _, ⟨hsound, fun y hy key hkey => ?_, fun y hy key => ?_⟩, f₂, es, ha, ?_⟩,
    ha.overwritten hready hb (h.inodePage hx) (h.index_ne_home hx hx) hrun, ?_, fun y hy hyx => ?_⟩
  · by_cases hyx : y = x
    · subst hyx
      rw [Function.update_self, hall, liveAt_append]
      by_cases hin : ∃ i < (pagesOf es).length, key = firstPage offset + 4096 * i
      · obtain ⟨i, hi, hkey'⟩ := hin
        have hq := List.getElem?_eq_getElem hi
        rw [firstPage] at hkey'
        refine ⟨by omega, .inr ((ha.liveAt_iff hb hodd).2 ⟨i, ?_, by omega⟩)⟩
        rwa [ha.inside i _ key hq hkey']
      · have hold := ha.outside key fun i hi hc => hin ⟨i, hi, hc⟩
        simp only [hold] at hkey ⊢
        exact (h.indexed y hy key hkey).imp_right .inl
    · rw [Function.update_of_ne hyx]
      simp only [ha.other y hyx] at hkey ⊢
      exact h.indexed y hy key hkey
  · have hyx : y ≠ x := by
      rintro rfl
      exact hy hx
    exact (congrFun (ha.other y hyx) key).trans (h.unindexed y hy key)
  · rw [Function.update_self, hall]
  · exact FileView.ext (ha.inodeField hready AtfsInode.fileOff (.inr (by simp)))
      (ha.inodeField hready AtfsInode.iSize (.inl (by simp)))
  · exact h.fileOf_other hx hy hyx (ha.other y hyx) hframe

/-- `nvmio_write` with the size and the position set behind it. -/
theorem Filed.writeInfo (h : v.Filed A F logs) (hx : x ∈ v.files) (hb : offset + cnt < 2 ^ 64)
    (hrun : Atfs.nvmioWrite A R v.state x buf cnt offset = .ok (ret, s))
    (hm : ChangesOnly (infoBytes x) s.mem m') :
    ret = cnt ∧ (∃ F' logs', Volume.Filed A F' logs' ⟨{ s with mem := m' }, v.homes, v.files⟩) ∧
      (fileOf v.state x).Overwritten buf cnt offset (fileOf { s with mem := m' } x) ∧
      viewOf s.mem x = viewOf v.state.mem x ∧
      ∀ y ∈ v.files, y ≠ x → fileOf { s with mem := m' } y = fileOf v.state y := by
  obtain ⟨hret, ⟨F₁, logs₁, h₁, -⟩, hover, hview, hother⟩ := h.nvmioWrite hx hb hrun
  obtain ⟨h', hself, hother'⟩ := h₁.info hx hm
  refine ⟨hret, ⟨F₁, logs₁, h'⟩, ?_, hview, fun y hy hyx => (hother' y hy hyx).trans
    (hother y hy hyx)⟩
  rw [hself]
  exact hover.info _ _

end Filed

end Volume

/-! ## Calls with their answers -/

/-- A call on the file, what it returns and the state after. -/
def answerCall (A : PageAllocator) (R : RadixTree) (inode : Nat) (s : State) :
    Call → Except Fault (Answer × State)
  | .write buf cnt => do
    let (ret, s) ← atfswrite A R s inode buf cnt
    .ok (.value ret, s)
  | .pwrite buf cnt offset => do
    let (ret, s) ← atfspwrite A R s inode buf cnt offset
    .ok (.value ret, s)
  | .read buf cnt => do
    let (ret, buf, s) ← atfsread s inode buf cnt
    .ok (.bytes ret buf, s)
  | .pread buf cnt offset => do
    let (ret, buf, s) ← atfspread s inode buf cnt offset
    .ok (.bytes ret buf, s)
  | .lseek offset whence =>
    let (ret, s) := atfslseek s inode offset whence
    .ok (.value ret, s)

namespace Volume

section Call

variable {A : PageAllocator} {R : RadixTree} {F : Set Nat} {logs : Nat → FileLog} {v : Volume}
  {s : State} {x : Nat} {c : Call} {a : Answer}

/-- What a call on the file `x` leaves: a volume in order, in which this file has made the step and
no other has changed. -/
structure Filed.After (A : PageAllocator) (v : Volume) (x : Nat) (r : Call × Answer)
    (s : State) : Prop where
  filed : ∃ F' logs', Volume.Filed A F' logs' ⟨s, v.homes, v.files⟩
  step : (fileOf v.state x).Step r (fileOf s x)
  other : ∀ y ∈ v.files, y ≠ x → fileOf s y = fileOf v.state y

theorem Filed.write {buf : Memory} {cnt ret : Nat} (h : v.Filed A F logs) (hx : x ∈ v.files)
    (hfit : (viewOf v.state.mem x).pos + cnt < 2 ^ 64)
    (hrun : atfswrite A R v.state x buf cnt = .ok (ret, s)) :
    Filed.After A v x (.write buf cnt, .value ret) s := by
  obtain ⟨⟨ret', s₁⟩, hwrite, hrun⟩ := bind_eq_ok.1 hrun
  obtain ⟨rfl, rfl⟩ := Prod.mk.inj (Except.ok.inj hrun)
  have hview := (h.nvmioWrite hx hfit hwrite).2.2.2.1
  obtain ⟨hinfo, hafter⟩ := updateInodeInfo_view
    (show AtfsInode.fileOff.get s₁.mem x + cnt < 2 ^ 64 by rw [← viewOf_pos, hview]; exact hfit)
  rw [← viewOf_pos, ← viewOf_size, hview] at hafter
  generalize updateInodeInfo s₁.mem x cnt = m' at hinfo hafter ⊢
  obtain ⟨rfl, h', hover, -, hother⟩ := h.writeInfo hx hfit hwrite hinfo
  exact ⟨h', .write hover (congrArg FileView.pos hafter) (congrArg FileView.size hafter), hother⟩

theorem Filed.pwrite {buf : Memory} {cnt offset ret : Nat} (h : v.Filed A F logs) (hx : x ∈ v.files)
    (hfit : offset + cnt < 2 ^ 64) (hrun : atfspwrite A R v.state x buf cnt offset = .ok (ret, s)) :
    Filed.After A v x (.pwrite buf cnt offset, .value ret) s := by
  obtain ⟨⟨ret', s₁⟩, hwrite, hrun⟩ := bind_eq_ok.1 hrun
  obtain ⟨rfl, rfl⟩ := Prod.mk.inj (Except.ok.inj hrun)
  have hview := (h.nvmioWrite hx hfit hwrite).2.2.2.1
  obtain ⟨hinfo, hafter⟩ := updateInodeSize_spec s₁.mem x cnt
  rw [← viewOf_pos, ← viewOf_size, hview] at hafter
  generalize updateInodeSize s₁.mem x cnt = m' at hinfo hafter ⊢
  obtain ⟨rfl, h', hover, -, hother⟩ := h.writeInfo hx hfit hwrite hinfo
  exact ⟨h', .pwrite hover (congrArg FileView.pos hafter) (congrArg FileView.size hafter), hother⟩

theorem Filed.read {buf out : Memory} {cnt : Nat} {ret : Int} (h : v.Filed A F logs)
    (hx : x ∈ v.files) (hfit : (viewOf v.state.mem x).pos + cnt < 2 ^ 64)
    (hrun : atfsread v.state x buf cnt = .ok (ret, out, s)) :
    Filed.After A v x (.read buf cnt, .bytes ret out) s := by
  obtain ⟨⟨ret', out'⟩, hread, hrun⟩ := bind_eq_ok.1 hrun
  obtain ⟨rfl, rfl, rfl⟩ : ret' = ret ∧ out' = out ∧ _ = s := by simpa using hrun
  obtain ⟨ret₁, out₁, hread₁, hanswer⟩ := nvmioRead_fileOf v.state x hfit buf
  obtain ⟨rfl, rfl⟩ := Prod.mk.inj (Except.ok.inj (hread₁.symm.trans hread))
  obtain ⟨hinfo, hafter⟩ := updateInodeOffset_spec
    (show AtfsInode.fileOff.get v.state.mem x + cnt < 2 ^ 64 from hfit)
  generalize updateInodeOffset v.state.mem x cnt = m' at hinfo hafter ⊢
  obtain ⟨h', hself, hother⟩ := h.info hx hinfo
  refine ⟨⟨F, logs, h'⟩, ?_, hother⟩
  rw [← hanswer, hself, ← viewOf_pos, ← viewOf_size, hafter]
  exact .read

theorem Filed.pread {buf out : Memory} {cnt offset : Nat} {ret : Int} (h : v.Filed A F logs)
    (hfit : offset + cnt < 2 ^ 64) (hrun : atfspread v.state x buf cnt offset = .ok (ret, out, s)) :
    Filed.After A v x (.pread buf cnt offset, .bytes ret out) s := by
  obtain ⟨⟨ret', out'⟩, hread, hrun⟩ := bind_eq_ok.1 hrun
  obtain ⟨rfl, rfl, rfl⟩ : ret' = ret ∧ out' = out ∧ v.state = s := by simpa using hrun
  obtain ⟨ret₁, out₁, hread₁, hanswer⟩ := nvmioRead_fileOf v.state x hfit buf
  obtain ⟨rfl, rfl⟩ := Prod.mk.inj (Except.ok.inj (hread₁.symm.trans hread))
  refine ⟨⟨F, logs, h⟩, ?_, fun _ _ _ => rfl⟩
  rw [← hanswer]
  exact .pread

theorem Filed.lseek {offset : Int} {whence : Whence} (h : v.Filed A F logs) (hx : x ∈ v.files)
    (hfit : (viewOf v.state.mem x).Fits (.lseek offset whence)) :
    Filed.After A v x (.lseek offset whence, .value (atfslseek v.state x offset whence).1)
      (atfslseek v.state x offset whence).2 := by
  obtain ⟨m', hseek, hinfo, hafter⟩ := atfslseek_view v.state x hfit
  obtain ⟨h', hself, hother⟩ := h.info hx hinfo
  rw [hseek]
  refine ⟨⟨F, logs, h'⟩, ?_, hother⟩
  rw [hself, ← viewOf_pos, ← viewOf_size, hafter]
  cases htarget : (viewOf v.state.mem x).target offset whence with
  | none =>
    have hret : (atfslseek v.state x offset whence).1 = 22 := by
      cases whence <;> simp [FileView.target, atfslseek] at htarget ⊢
    rw [hret]
    simp only [FileView.step, htarget, Option.getD_none, Int.toNat_natCast]
    exact .seekOther htarget
  | some p =>
    obtain ⟨hp, -⟩ := hfit p htarget
    obtain ⟨p, rfl⟩ := Int.eq_ofNat_of_zero_le hp
    have hret : (atfslseek v.state x offset whence).1 = p := by
      have hpos : AtfsInode.fileOff.get (atfslseek v.state x offset whence).2.mem x = p := by
        rw [hseek, ← viewOf_pos, hafter, FileView.step, htarget]
        rfl
      cases whence with
      | other => cases htarget
      | _ => exact hpos
    rw [hret]
    simp only [FileView.step, htarget, Option.getD_some, Int.toNat_natCast]
    exact .seek htarget

/-- A call on a file answers, and changes it, as a call on its view does. -/
theorem Filed.call (h : v.Filed A F logs) (hx : x ∈ v.files) (hfit : (viewOf v.state.mem x).Fits c)
    (hrun : answerCall A R x v.state c = .ok (a, s)) : Filed.After A v x (c, a) s := by
  cases c with
  | write buf cnt =>
    obtain ⟨⟨ret, t⟩, hcall, hrun⟩ := bind_eq_ok.1 hrun
    obtain ⟨rfl, rfl⟩ : .value (ret : Int) = a ∧ t = s := by simpa using hrun
    exact h.write hx hfit hcall
  | pwrite buf cnt offset =>
    obtain ⟨⟨ret, t⟩, hcall, hrun⟩ := bind_eq_ok.1 hrun
    obtain ⟨rfl, rfl⟩ : .value (ret : Int) = a ∧ t = s := by simpa using hrun
    exact h.pwrite hx hfit hcall
  | read buf cnt =>
    obtain ⟨⟨ret, out, t⟩, hcall, hrun⟩ := bind_eq_ok.1 hrun
    obtain ⟨rfl, rfl⟩ : .bytes ret out = a ∧ t = s := by simpa using hrun
    exact h.read hx hfit hcall
  | pread buf cnt offset =>
    obtain ⟨⟨ret, out, t⟩, hcall, hrun⟩ := bind_eq_ok.1 hrun
    obtain ⟨rfl, rfl⟩ : .bytes ret out = a ∧ t = s := by simpa using hrun
    exact h.pread hfit hcall
  | lseek offset whence =>
    obtain ⟨rfl, rfl⟩ : .value ((atfslseek v.state x offset whence).1 : Int) = a ∧
        (atfslseek v.state x offset whence).2 = s := by simpa [answerCall] using hrun
    exact h.lseek hx hfit

end Call

end Volume

end Atfs
