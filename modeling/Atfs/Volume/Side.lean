import Atfs.Volume.Files

/-!
# Beside the files

The superblock, the tables, the descriptor of an inode and the links it is threaded on are no part
of any file. Whoever writes there, and leaves the page allocator what it has, leaves every file as
it is.
-/

namespace Atfs

open ByteMemory LinkedChain

/-- The words of an inode that are no part of its file: the descriptor, and what lies behind the
position. -/
def sideWords (inode : Nat) : Set Nat := AtfsInode.fd.bytes inode ∪ Set.Ico (inode + 80)
    (inode + 216)

namespace Volume

/-- What is no part of a file: the space in front of the pages, the nodes of the pages that inodes
lie in, and those words of the inodes. -/
def sideBytes (v : Volume) : Set Nat :=
  Set.Iio 114688 ∪ {a | ∃ p ∈ v.homes, p + 4096 ≤ a ∧ a < p + 4136} ∪
    {a | ∃ x ∈ v.files, a ∈ sideWords x}

/-- From the volume to `s` only such bytes are written, and the allocator holds what it held. -/
structure SideWrite (A : PageAllocator) (v : Volume) (s : State) : Prop where
  frame : ChangesOnly v.sideBytes v.state.mem s.mem
  rep : ∀ F, A.Rep v.state.mem F → (∀ p ∈ v.homes, p ∉ F) → A.Rep s.mem F
  index : s.index = v.state.index
  trace : s.trace = v.state.trace

section Side

variable {A : PageAllocator} {F : Set Nat} {logs : Nat → FileLog} {v : Volume}
  {s t : State} {x q : Nat}

theorem sideWords_subset (x : Nat) : sideWords x ⊆ inodeBytes x := by
  rintro a (ha | ha)
  · simp only [Field.bytes, AtfsInode.fd_off, AtfsInode.fd_size, Set.mem_Ico] at ha
    rw [inodeBytes, Set.mem_Ico]
    omega
  · rw [Set.mem_Ico] at ha
    rw [inodeBytes, Set.mem_Ico]
    omega

theorem SideWrite.trans (h : v.SideWrite A s) (h' : SideWrite A ⟨s, v.homes, v.files⟩ t) :
    v.SideWrite A t where
  frame := h.frame.trans h'.frame
  rep F hF hhomes := h'.rep F (h.rep F hF hhomes) hhomes
  index := h'.index.trans h.index
  trace := h'.trace.trans h.trace

/-- Pages that no inode lies in are out of reach. -/
theorem Sound.disjoint_sideBytes (h : v.Sound A F logs) (hq : IsPage q) (hhome : q ∉ v.homes) :
    Disjoint v.sideBytes (pageBytes q) := by
  refine Set.disjoint_left.2 ?_
  rintro a ((ha | ⟨p, hp, ha⟩) | ⟨x, hx, ha⟩) haq
  · have := hq.bounds
    rw [Set.mem_Iio] at ha
    rw [mem_pageBytes] at haq
    omega
  · have hne : p ≠ q := by
      rintro rfl
      exact hhome hp
    have := (h.home p hp).1.apart hq hne
    rw [mem_pageBytes] at haq
    omega
  · have hne : q ≠ (logs x).home := by
      rintro rfl
      exact hhome (h.homes x hx)
    exact Set.disjoint_left.1 ((h.log x hx).inodeIn.disjoint_page hq hne)
      (sideWords_subset x ha) haq

/-- So are the words of the files. -/
theorem Sound.disjoint_word (h : v.Sound A F logs) (hx : x ∈ v.files) {g : Field 216}
    (hg : g.off + g.size ≤ 52 ∨ 56 ≤ g.off ∧ g.off + g.size ≤ 80) :
    Disjoint v.sideBytes (g.bytes x) := by
  have hin := (h.log x hx).inodeIn
  have hhome := (h.home _ (h.homes x hx)).1
  obtain ⟨-, hle, hle'⟩ := hin
  rw [show sizeofAtfsInode = 216 from rfl] at hle'
  have hbounds := hhome.bounds
  refine Set.disjoint_left.2 fun a ha hag => ?_
  have hfits := g.fits
  rw [Field.bytes, Set.mem_Ico] at hag
  rcases ha with (ha | ⟨p, hp, ha⟩) | ⟨y, hy, ha⟩
  · rw [Set.mem_Iio] at ha
    omega
  · by_cases hne : p = (logs x).home
    · omega
    · have := (h.home p hp).1.apart hhome hne
      omega
  · by_cases hyx : y = x
    · subst hyx
      rcases ha with ha | ha
      · simp only [Field.bytes, AtfsInode.fd_off, AtfsInode.fd_size, Set.mem_Ico] at ha
        omega
      · rw [Set.mem_Ico] at ha
        omega
    · have hya := sideWords_subset y ha
      have := h.apart y hy x hx hyx
      rw [inodeBytes, Set.mem_Ico] at hya
      omega

theorem SideWrite.word (hs : v.SideWrite A s) (h : v.Sound A F logs) (hx : x ∈ v.files)
    {g : Field 216} (hg : g.off + g.size ≤ 52 ∨ 56 ≤ g.off ∧ g.off + g.size ≤ 80) :
    g.get s.mem x = g.get v.state.mem x :=
  hs.frame.get g (h.disjoint_word hx hg)

theorem SideWrite.page (hs : v.SideWrite A s) (h : v.Sound A F logs) (hq : IsPage q)
    (hhome : q ∉ v.homes) :
    Set.EqOn s.mem v.state.mem (pageBytes q) := hs.frame.eqOn (h.disjoint_sideBytes hq hhome)

/-- Every file keeps its log. -/
theorem Sound.side (h : v.Sound A F logs) (hs : v.SideWrite A s) :
    Volume.Sound A F logs ⟨s, v.homes, v.files⟩ where
  rep := hs.rep F h.rep fun p hp => (h.home p hp).2.1
  log x hx := by
    have hlog := h.log x hx
    refine ⟨{ hlog.holds with rep := hs.rep F h.rep fun p hp => (h.home p hp).2.1 }, ?_, ?_,
      hlog.inodeIn, hlog.inUse, hlog.apart⟩
    · rw [hs.word h hx (g := AtfsInode.logHead) (by simp)]
      refine hlog.log.congr (fun q hq => ?_) hlog.log.inUse rfl rfl
      exact hs.page h (h.isPage_own hx q hq) fun hc => (h.home q hc).2.2 x hx hq
    · rw [hs.word h hx (g := AtfsInode.logTail) (by simp)]
      exact hlog.tail
  joined x hx := by
    rw [hs.trace]
    exact h.joined x hx
  home := h.home
  homes := h.homes
  disjoint := h.disjoint
  apart := h.apart

/-- Every file stays what it is. -/
theorem Filed.side (h : v.Filed A F logs) (hs : v.SideWrite A s) :
    Volume.Filed A F logs ⟨s, v.homes, v.files⟩ ∧ ∀ y ∈ v.files, fileOf s y = fileOf v.state y := by
  refine ⟨⟨h.sound.side hs, ?_, ?_⟩, fun y hy => ?_⟩
  · simp only [hs.index]
    exact h.indexed
  · simp only [hs.index]
    exact h.unindexed
  · refine PagedFile.ext (hs.word h.sound hy (g := AtfsInode.fileOff) (by simp))
      (hs.word h.sound hy (g := AtfsInode.iSize) (by simp)) ?_ (funext fun z => ?_)
    · simp only [fileOf, hs.index]
    · refine fileByte_eq_of_page (by rw [hs.index]) fun hmap => ?_
      have hown := h.mem_own hy hmap
      refine hs.page h.sound (h.sound.isPage_own hy _ hown)
        (fun hc => (h.sound.home _ hc).2.2 y hy hown) ?_
      rw [mem_pageBytes]
      omega

end Side

end Volume

end Atfs
