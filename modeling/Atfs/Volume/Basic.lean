import Atfs.Gc.Task
import Atfs.Log.Mark

/-!
# Many files on one allocator

The inodes of a volume lie in pages of their own, each has its log, and no page belongs to two of
them. A call that works on one inode leaves the logs of the others as they are.
-/

namespace Atfs

open ByteMemory LinkedChain

/-! ## Logs side by side -/

/-- The log of a file: the page its inode lies in, and the pages of the log. -/
structure FileLog where
  home : Nat
  pages : List LogPage
  last : LogPage

namespace FileLog

/-- All pages of the log. -/
def all (l : FileLog) : List LogPage := l.pages ++ [l.last]

/-- The log pages and the data pages. -/
def own (l : FileLog) : List Nat := owned l.all

/-- Where the log ends while the allocator holds the pages `F`. -/
def frontier (l : FileLog) (F : Set Nat) : Frontier :=
  ⟨F, l.last.page, l.last.page + 48 * l.last.entries.length⟩

/-- The log with page `pos` of the entry at `e` marked. -/
def mark (l : FileLog) (e pos : Nat) : FileLog :=
    ⟨l.home, l.pages.map (·.mark e pos), l.last.mark e pos⟩

theorem all_mark (l : FileLog) (e pos : Nat) : (l.mark e pos).all = l.all.map (·.mark e pos) := by
  rw [all, all, List.map_append, List.map_singleton, mark]

theorem own_mark (l : FileLog) (e pos : Nat) : (l.mark e pos).own = l.own := by
  rw [own, all_mark, owned_mark, own]

theorem frontier_mark (l : FileLog) (e pos : Nat) (F : Set Nat) :
    (l.mark e pos).frontier F = l.frontier F := by
  rw [frontier, mark, LogPage.length_mark, LogPage.mark_page, frontier]

end FileLog

/-- The state, the pages that inodes lie in and the inodes initialised so far. -/
structure Volume where
  state : State
  homes : List Nat
  files : List Nat

/-- Every file of the volume has its log in memory, apart from all others, and the entries on the
pages of the logs are those that the trace has for them. -/
structure Volume.Sound (A : PageAllocator) (F : Set Nat) (logs : Nat → FileLog)
    (v : Volume) : Prop where
  rep : A.Rep v.state.mem F
  log : ∀ x ∈ v.files, LogOf A x (logs x).home v.state.mem ((logs x).frontier F)
    (logs x).pages (logs x).last
  joined : ∀ x ∈ v.files, Joined v.state.trace (logs x).all
  home : ∀ p ∈ v.homes, IsPage p ∧ p ∉ F ∧ ∀ x ∈ v.files, p ∉ (logs x).own
  homes : ∀ x ∈ v.files, (logs x).home ∈ v.homes
  disjoint : ∀ x ∈ v.files, ∀ y ∈ v.files, x ≠ y → (logs x).own.Disjoint (logs y).own
  apart : ∀ x ∈ v.files, ∀ y ∈ v.files, x ≠ y → x + 216 ≤ y ∨ y + 216 ≤ x

section Frame

variable {A : PageAllocator} {F F' U : Set Nat} {f f' : Frontier} {m m' : Memory} {inode r x : Nat}
  {L : List LogPage} {last : LogPage}

/-- A log that a call for something else does not reach. -/
theorem LogOf.congr (h : LogOf A inode r m f L last) (hrep : A.Rep m' f'.free)
    (hpage : f'.page = f.page) (htail : f'.tail = f.tail)
    (hinode : Set.EqOn m' m (inodeBytes inode))
    (hown : ∀ q ∈ owned (L ++ [last]), Set.EqOn m' m (pageBytes q)) (hr : r ∉ f'.free)
    (hfree : ∀ q ∈ owned (L ++ [last]), q ∉ f'.free) : LogOf A inode r m' f' L last := by
  have word (g : Field 216) : g.get m' inode = g.get m inode := by
    have hfits := g.fits
    refine Field.get_congr fun a ha => hinode ?_
    rw [Field.bytes, Set.mem_Ico] at ha
    rw [inodeBytes, Set.mem_Ico]
    omega
  have hlast : f.page ∈ owned (L ++ [last]) := h.log.page ▸ mem_owned_page (by simp)
  refine ⟨⟨hrep, hpage ▸ h.holds.isPage, hpage ▸ hfree _ hlast, ?_, ?_⟩, ?_, ?_, h.inodeIn,
    hr, h.apart⟩
  · rw [hpage, htail]
    exact h.holds.le_tail
  · rw [hpage, htail]
    exact h.holds.tail_le
  · rw [word]
    exact h.log.congr hown hfree hpage htail
  · rw [word, htail]
    exact h.tail

/-- The allocator writes no counters. -/
theorem counters_of_allocatorBytes {W : Set Nat} {T : Nat} (hF : ∀ q ∈ F, IsPage q) (hT : IsPage T)
    (hm : ChangesOnly (allocatorBytes F ∪ W) m m') (hW : Disjoint W (pageBytes T)) :
    counters m' T = counters m T := by
  refine counters_congr fun a ha => hm a ?_
  rw [Set.mem_Ico] at ha
  rintro ((hc | ⟨q, hq, hc⟩) | hc)
  · have := hT.bounds
    rw [mem_metadata] at hc
    omega
  · rw [mem_linkBytes] at hc
    by_cases hqT : q = T
    · omega
    · have := (hF q hq).apart hT hqT
      omega
  · exact Set.disjoint_left.1 hW hc (by rw [mem_pageBytes]; omega)

/-- What a call for the inode `x` may write that takes pages from `U` and from the free ones. -/
def reachBytes (F U : Set Nat) (x : Nat) : Set Nat := metadata ∪ bytesOf (F ∪ U) ∪ inodeBytes x

theorem pageBytes_disjoint_reachBytes (hF : ∀ q ∈ F ∪ U, IsPage q) (hx : InodeIn x r) {q : Nat}
    (hq : IsPage q) (hqF : q ∉ F) (hqU : q ∉ U) (hqr : q ≠ r) :
    Disjoint (reachBytes F U x) (pageBytes q) := by
  refine Set.disjoint_left.2 ?_
  rintro a ((ha | ha) | ha) haq
  · have := hq.bounds
    rw [mem_metadata] at ha
    rw [mem_pageBytes] at haq
    omega
  · exact not_mem_bytesOf hF hq (fun hc => hc.elim hqF hqU) haq ha
  · exact Set.disjoint_left.1 (hx.disjoint_page hq hqr) ha haq

/-- Inodes beside `x` in pages that the call does not take. -/
theorem inodeBytes_disjoint_reachBytes (hF : ∀ q ∈ F ∪ U, IsPage q) (hin : InodeIn inode r)
    (hrF : r ∉ F) (hrU : r ∉ U) (hapart : x + 216 ≤ inode ∨ inode + 216 ≤ x) :
    Disjoint (reachBytes F U x) (inodeBytes inode) := by
  refine Set.disjoint_left.2 ?_
  rintro a ((ha | ha) | ha) hai
  · have := hin.1.bounds
    have hai := hin.subset_page hai
    rw [mem_metadata] at ha
    rw [mem_pageBytes] at hai
    omega
  · exact not_mem_bytesOf hF hin.1 (fun hc => hc.elim hrF hrU) (hin.subset_page hai) ha
  · rw [inodeBytes, Set.mem_Ico] at ha hai
    omega

end Frame

namespace Volume

section Sound

variable {A : PageAllocator} {F F' U : Set Nat} {logs : Nat → FileLog} {v : Volume} {x : Nat}
  {l' : FileLog} {s' : State} {files : List Nat}

theorem Sound.isPage_own (h : v.Sound A F logs) (hx : x ∈ v.files) : ∀ q ∈ (logs x).own,
    IsPage q := by
  intro q hq
  obtain ⟨P, hP, hqP⟩ := mem_owned.1 hq
  exact ((h.log x hx).log.rep P hP).isPage_own q hqP

theorem Sound.own_notFree (h : v.Sound A F logs) (hx : x ∈ v.files) : ∀ q ∈ (logs x).own, q ∉ F :=
  (h.log x hx).log.inUse

/-- A call for the inode `x` that takes pages from `U` and free ones leaves the pages of the files
that have none of them, and their inodes. -/
theorem Sound.keeps {y r : Nat} {m' : Memory} (h : v.Sound A F logs) (hin : InodeIn x r)
    (hr : r ∈ v.homes) (hUpage : ∀ q ∈ U, IsPage q) (hy : y ∈ v.files)
    (hU : ∀ q ∈ (logs y).own, q ∉ U) (hUhome : (logs y).home ∉ U)
    (hapart : x + 216 ≤ y ∨ y + 216 ≤ x) (hframe : ChangesOnly (reachBytes F U x) v.state.mem m') :
    (∀ q ∈ (logs y).own, Set.EqOn m' v.state.mem (pageBytes q)) ∧
    Set.EqOn m' v.state.mem (inodeBytes y) := by
  have hF : ∀ q ∈ F ∪ U, IsPage q := by
    rintro q (hq | hq)
    · exact A.rep_page h.rep q hq
    · exact hUpage q hq
  refine ⟨fun q hq => hframe.eqOn ?_, hframe.eqOn ?_⟩
  · refine pageBytes_disjoint_reachBytes hF hin (h.isPage_own hy q hq) (h.own_notFree hy q hq)
      (hU q hq) ?_
    rintro rfl
    exact (h.home _ hr).2.2 y hy hq
  · exact inodeBytes_disjoint_reachBytes hF (h.log y hy).inodeIn (h.home _ (h.homes y hy)).2.1
      hUhome hapart

/-- A call for a file leaves the pages of all other files, and their inodes. -/
theorem Sound.keeps_other {y : Nat} {m' : Memory} (h : v.Sound A F logs) (hx : x ∈ v.files)
    (hy : y ∈ v.files) (hyx : y ≠ x)
    (hframe : ChangesOnly (reachBytes F {q | q ∈ (logs x).own} x) v.state.mem m') :
    (∀ q ∈ (logs y).own, Set.EqOn m' v.state.mem (pageBytes q)) ∧
    Set.EqOn m' v.state.mem (inodeBytes y) :=
  h.keeps (h.log x hx).inodeIn (h.homes x hx) (h.isPage_own hx) hy
    (fun _ hq hc => h.disjoint y hy x hx hyx hq hc)
    ((h.home _ (h.homes y hy)).2.2 x hx) (h.apart x hx y hy (Ne.symm hyx)) hframe

/-- A call for the inode `x`, which owned the pages `U` before and has the log `l'` behind it. -/
theorem Sound.replace (h : v.Sound A F logs)
    (hlog : LogOf A x l'.home s'.mem (l'.frontier F') l'.pages l'.last) (hhome : l'.home ∈ v.homes)
    (hfiles : ∀ y ∈ files, y = x ∨ y ∈ v.files ∧ y ≠ x) (hUpage : ∀ q ∈ U, IsPage q)
    (hU : ∀ y ∈ v.files, y ≠ x → ∀ q ∈ (logs y).own, q ∉ U) (hUhome : ∀ p ∈ v.homes, p ∉ U)
    (hreach : ∀ q, q ∈ F' ∨ q ∈ l'.own → q ∈ F ∨ q ∈ U)
    (hframe : ChangesOnly (reachBytes F U x) v.state.mem s'.mem)
    (hapart : ∀ y ∈ v.files, y ≠ x → x + 216 ≤ y ∨ y + 216 ≤ x) (hjoined : Joined s'.trace l'.all)
    (htrace : ∀ T, T ∉ F → T ∉ U → sinceJoined T s'.trace = sinceJoined T v.state.trace) :
    Volume.Sound A F' (Function.update logs x l') ⟨s', v.homes, files⟩ := by
  have hF : ∀ q ∈ F ∪ U, IsPage q := by
    rintro q (hq | hq)
    · exact A.rep_page h.rep q hq
    · exact hUpage q hq
  have hother {y : Nat} (hy : y ∈ v.files) (hyx : y ≠ x) : Function.update logs x l' y = logs y :=
    Function.update_of_ne hyx _ _
  have hself : Function.update logs x l' x = l' := Function.update_self _ _ _
  -- the pages of the other files are out of reach
  have hout {y q : Nat} (hy : y ∈ v.files) (hyx : y ≠ x) (hq : q ∈ (logs y).own) :
      q ∉ F ∧ q ∉ U := ⟨h.own_notFree hy q hq, hU y hy hyx q hq⟩
  have hnew {q : Nat} (hqF : q ∉ F) (hqU : q ∉ U) : q ∉ F' ∧ q ∉ l'.own :=
    ⟨fun hc => (hreach q (.inl hc)).elim hqF hqU, fun hc => (hreach q (.inr hc)).elim hqF hqU⟩
  have hhomes {p : Nat} (hp : p ∈ v.homes) : p ∉ F ∧ p ∉ U := ⟨(h.home p hp).2.1, hUhome p hp⟩
  refine ⟨hlog.holds.rep, fun y hy => ?_, fun y hy => ?_,
    fun p hp => ⟨(h.home p hp).1, ?_, fun y hy => ?_⟩, fun y hy => ?_, fun y hy z hz hyz => ?_,
    fun y hy z hz hyz => ?_⟩
  · rcases hfiles y hy with rfl | ⟨hy, hyx⟩
    · rwa [hself]
    · rw [hother hy hyx]
      have hly := h.log y hy
      have hr := hhomes (h.homes y hy)
      refine hly.congr hlog.holds.rep rfl rfl (hframe.eqOn ?_) (fun q hq => hframe.eqOn ?_)
        (hnew hr.1 hr.2).1 fun q hq => ?_
      · exact inodeBytes_disjoint_reachBytes hF hly.inodeIn hr.1 hr.2 (hapart y hy hyx)
      · obtain ⟨hqF, hqU⟩ := hout hy hyx hq
        refine pageBytes_disjoint_reachBytes hF hlog.inodeIn (h.isPage_own hy q hq) hqF hqU ?_
        rintro rfl
        exact (h.home _ hhome).2.2 y hy hq
      · obtain ⟨hqF, hqU⟩ := hout hy hyx hq
        exact (hnew hqF hqU).1
  · rcases hfiles y hy with rfl | ⟨hy, hyx⟩
    · rwa [hself]
    · rw [hother hy hyx]
      intro P hP
      obtain ⟨hqF, hqU⟩ := hout hy hyx (mem_owned_page hP)
      rw [htrace P.page hqF hqU]
      exact h.joined y hy P hP
  · obtain ⟨hpF, hpU⟩ := hhomes hp
    exact (hnew hpF hpU).1
  · rcases hfiles y hy with rfl | ⟨hy, hyx⟩
    · obtain ⟨hpF, hpU⟩ := hhomes hp
      rw [hself]
      exact (hnew hpF hpU).2
    · rw [hother hy hyx]
      exact (h.home p hp).2.2 y hy
  · rcases hfiles y hy with rfl | ⟨hy, hyx⟩
    · rwa [hself]
    · rw [hother hy hyx]
      exact h.homes y hy
  · have hxy {y : Nat} (hy : y ∈ v.files) (hyx : y ≠ x) : (logs y).own.Disjoint l'.own := by
      intro q hq hq'
      obtain ⟨hqF, hqU⟩ := hout hy hyx hq
      exact (hnew hqF hqU).2 hq'
    rcases hfiles y hy with rfl | ⟨hy, hyx⟩ <;> rcases hfiles z hz with rfl | ⟨hz, hzx⟩
    · exact absurd rfl hyz
    · rw [hself, hother hz hzx]
      exact (hxy hz hzx).symm
    · rw [hself, hother hy hyx]
      exact hxy hy hyx
    · rw [hother hy hyx, hother hz hzx]
      exact h.disjoint y hy z hz hyz
  · rcases hfiles y hy with rfl | ⟨hy, hyx⟩ <;> rcases hfiles z hz with rfl | ⟨hz, hzx⟩
    · exact absurd rfl hyz
    · exact hapart z hz hzx
    · exact (hapart y hy hyx).symm
    · exact h.apart y hy z hz hyz

end Sound

end Volume

end Atfs
