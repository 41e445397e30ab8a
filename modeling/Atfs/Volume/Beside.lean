import Atfs.Volume.Guard

/-!
# What calls leave beside the files

A call on a file, an invalidation and a collection write to the pages and the words of a file. The
superblock, the inode tables and the links behind the position in every inode stay as they are.
-/

namespace Atfs

open ByteMemory LinkedChain

/-- The superblock, the inode tables and what lies behind the position in the inodes. -/
def Volume.besideBytes (v : Volume) : Set Nat :=
  Set.Iio 4095 ∪ tableBytes ∪ {a | ∃ x ∈ v.files, x + 80 ≤ a ∧ a < x + 216}

/-- A byte of an inode is unchanged if all fields behind its position are. -/
theorem apply_eq_of_fields {m m' : Memory} {x a : Nat}
    (h : ∀ g : Field 216, 80 ≤ g.off → g.get m' x = g.get m x) (ha : x + 80 ≤ a)
    (ha' : a < x + 216) :
    m' a = m a := by
  have hbyte := h ⟨a - x, 1, by omega⟩ (by simp only; omega)
  simp only [Field.get, load, show x + (a - x) = a by omega] at hbyte
  simpa [UInt8.toNat_inj] using hbyte

namespace Volume

section Beside

variable {A : PageAllocator} {R : RadixTree} {F : Set Nat} {logs : Nat → FileLog}
  {v : Volume} {s : State} {m' : Memory} {x : Nat}

/-- What is written for a file, outside of the tables and the words behind its position. -/
theorem Sound.beside (h : v.Sound A F logs) (hx : x ∈ v.files)
    (hframe : ChangesOnly (reachBytes F {q | q ∈ (logs x).own} x) v.state.mem m')
    (htables : Set.EqOn m' v.state.mem tableBytes)
    (hself : ∀ g : Field 216, 80 ≤ g.off → g.get m' x = g.get v.state.mem x) :
    Set.EqOn m' v.state.mem v.besideBytes := by
  rintro a ((ha | ha) | ⟨y, hy, ha, ha'⟩)
  · refine hframe a ?_
    rw [Set.mem_Iio] at ha
    rintro ((hc | ⟨q, hq, hc⟩) | hc)
    · rw [mem_metadata] at hc
      omega
    · have hpage : IsPage q := hq.elim (A.rep_page h.rep q) (h.isPage_own hx q)
      have := hpage.bounds
      rw [mem_pageBytes] at hc
      omega
    · have := (h.log x hx).inodeIn.bounds
      rw [inodeBytes, Set.mem_Ico] at hc
      omega
  · exact htables ha
  · by_cases hyx : y = x
    · subst hyx
      exact apply_eq_of_fields hself ha ha'
    · refine (h.keeps_other hx hy hyx hframe).2 ?_
      rw [inodeBytes, Set.mem_Ico]
      omega

/-- The size and the position set. -/
theorem get_of_infoBytes {m : Memory} (hm : ChangesOnly (infoBytes x) m m') {g : Field 216}
    (hg : 80 ≤ g.off) :
    g.get m' x = g.get m x := by
  refine Field.get_congr fun a ha => hm a fun hc => ?_
  simp only [infoBytes, Field.bytes, AtfsInode.iSize_off, AtfsInode.iSize_size,
    AtfsInode.fileOff_off, AtfsInode.fileOff_size, Set.mem_union, Set.mem_Ico] at ha hc
  omega

theorem Sound.info_beside (h : v.Sound A F logs) (hx : x ∈ v.files)
    (hm : ChangesOnly (infoBytes x) v.state.mem m') (htables : Set.EqOn m' v.state.mem tableBytes) :
    Set.EqOn m' v.state.mem v.besideBytes :=
  h.beside hx (changesOnly_info hm) htables fun _ hg => get_of_infoBytes hm hg

theorem Filed.write_beside {buf : Memory} {cnt offset ret : Nat} (h : v.Filed A F logs)
    (hx : x ∈ v.files) (hb : offset + cnt < 2 ^ 64)
    (hrun : Atfs.nvmioWrite A R v.state x buf cnt offset = .ok (ret, s))
    (hm : ChangesOnly (infoBytes x) s.mem m') (htables : Set.EqOn m' v.state.mem tableBytes) :
    Set.EqOn m' v.state.mem v.besideBytes := by
  have hready := h.ready hx
  obtain ⟨-, f', f₂, L', last', evs, s₁, es, hgrows, hmem, htrace, -, ha⟩ :=
    (h.sound.log x hx).appended hready hb hrun
  obtain ⟨-, hframe⟩ := h.sound.grow hx hgrows hmem htrace
  refine h.sound.beside hx
    (hframe.trans (hm.mono fun a ha => .inr (infoBytes_subset_inodeBytes ha))) htables
    fun g hg => ?_
  rw [get_of_infoBytes hm hg]
  exact ha.inodeField hready g (.inr (by omega))

/-- A call on a file. -/
theorem Filed.call_beside {c : Call} {a : Answer} (hA : TablesApart A) (h : v.Filed A F logs)
    (hx : x ∈ v.files) (hfit : (viewOf v.state.mem x).Fits c)
    (hrun : answerCall A R x v.state c = .ok (a, s)) :
    Set.EqOn s.mem v.state.mem v.besideBytes := by
  have htables := h.call_tables hA hx hfit hrun
  cases c with
  | write buf cnt =>
    obtain ⟨⟨ret, t⟩, hcall, hrun⟩ := bind_eq_ok.1 hrun
    obtain ⟨rfl, rfl⟩ : .value (ret : Int) = a ∧ t = s := by simpa using hrun
    obtain ⟨⟨ret', s₁⟩, hwrite, hcall⟩ := bind_eq_ok.1 hcall
    obtain ⟨rfl, rfl⟩ := Prod.mk.inj (Except.ok.inj hcall)
    have hview := (h.nvmioWrite hx hfit hwrite).2.2.2.1
    have hinfo := (updateInodeInfo_view
      (show AtfsInode.fileOff.get s₁.mem x + cnt <
        2 ^ 64 by rw [← viewOf_pos, hview]; exact hfit)).1
    generalize updateInodeInfo s₁.mem x cnt = m' at hinfo htables ⊢
    exact h.write_beside hx hfit hwrite hinfo htables
  | pwrite buf cnt offset =>
    obtain ⟨⟨ret, t⟩, hcall, hrun⟩ := bind_eq_ok.1 hrun
    obtain ⟨rfl, rfl⟩ : .value (ret : Int) = a ∧ t = s := by simpa using hrun
    obtain ⟨⟨ret', s₁⟩, hwrite, hcall⟩ := bind_eq_ok.1 hcall
    obtain ⟨rfl, rfl⟩ := Prod.mk.inj (Except.ok.inj hcall)
    have hinfo := (updateInodeSize_spec s₁.mem x cnt).1
    generalize updateInodeSize s₁.mem x cnt = m' at hinfo htables ⊢
    exact h.write_beside hx hfit hwrite hinfo htables
  | read buf cnt =>
    obtain ⟨⟨ret, out, t⟩, hcall, hrun⟩ := bind_eq_ok.1 hrun
    obtain ⟨rfl, rfl⟩ : .bytes ret out = a ∧ t = s := by simpa using hrun
    obtain ⟨⟨ret', out'⟩, -, hcall⟩ := bind_eq_ok.1 hcall
    obtain ⟨-, -, rfl⟩ : ret' = ret ∧ out' = out ∧ _ = t := by simpa using hcall
    have hinfo := (updateInodeOffset_spec
      (show AtfsInode.fileOff.get v.state.mem x + cnt < 2 ^ 64 from hfit)).1
    generalize updateInodeOffset v.state.mem x cnt = m' at hinfo htables ⊢
    exact h.sound.info_beside hx hinfo htables
  | pread buf cnt offset =>
    obtain ⟨⟨ret, out, t⟩, hcall, hrun⟩ := bind_eq_ok.1 hrun
    obtain ⟨rfl, rfl⟩ : .bytes ret out = a ∧ t = s := by simpa using hrun
    obtain ⟨⟨ret', out'⟩, -, hcall⟩ := bind_eq_ok.1 hcall
    obtain ⟨-, -, rfl⟩ : ret' = ret ∧ out' = out ∧ v.state = t := by simpa using hcall
    exact Set.eqOn_refl _ _
  | lseek offset whence =>
    obtain ⟨-, rfl⟩ : .value ((atfslseek v.state x offset whence).1 : Int) = a ∧
        (atfslseek v.state x offset whence).2 = s := by simpa [answerCall] using hrun
    obtain ⟨m', hseek, hinfo, -⟩ := atfslseek_view v.state x hfit
    rw [hseek] at htables ⊢
    exact h.sound.info_beside hx hinfo htables

/-- An invalidation. -/
theorem Sound.invalidate_beside {T e j q pageOff : Nat} (h : v.Sound A F logs) (hx : x ∈ v.files)
    (hlive : LiveData v.state.mem x T e j q) (hpos : invalidatePos v.state.mem e pageOff = j) :
    Set.EqOn (invalidateOldLogEntry v.state.mem e pageOff) v.state.mem v.besideBytes := by
  obtain ⟨logs', m', hm', -, -, -, -, P, hP, hframe⟩ := h.invalidate_live hx hlive hpos
  have hown : P.page ∈ (logs x).own := mem_owned_page hP
  have hpage := h.isPage_own hx _ hown
  rw [hm']
  refine h.beside hx (hframe.mono fun a ha => .inl (.inr ⟨P.page, .inr hown, ha⟩))
    (hframe.eqOn ?_) fun g _ => ?_
  · refine Set.disjoint_left.2 fun a ha hc => ?_
    have := hpage.bounds
    rw [tableBytes, Set.mem_Ico] at hc
    rw [mem_pageBytes] at ha
    omega
  · refine Field.get_congr fun a ha => hframe a fun hc => ?_
    have hne : P.page ≠ (logs x).home := by
      intro hc
      exact (h.home _ (h.homes x hx)).2.2 x hx (hc ▸ hown)
    refine Set.disjoint_left.1 ((h.log x hx).inodeIn.disjoint_page hpage hne) ?_ hc
    have hfits := g.fits
    rw [Field.bytes, Set.mem_Ico] at ha
    rw [inodeBytes, Set.mem_Ico]
    omega

/-- A collection. -/
theorem Sound.gc_beside {fuel : Nat} (hA : TablesApart A) (h : v.Sound A F logs) (hx : x ∈ v.files)
    (hgc : gcInode A x fuel v.state = .ok s) : Set.EqOn s.mem v.state.mem v.besideBytes := by
  obtain ⟨F', Z, last', evs, -, -, hframe, hkept, -⟩ := h.gc_repacked hx hgc
  exact h.beside hx hframe (h.gc_tables hA hx hgc) fun g hg => hkept.word g (.inr (by omega))

end Beside

end Volume

end Atfs
