import Atfs.Inode.Basic
import Atfs.Volume.Steps

/-!
# Counters of log pages

`get_log_entry`, `init_log_entry`, `invalidate_old_log_entry` and `init_atfs_inode` maintain four
counters in the node of a log page. Over whole runs they agree with the entries on the page, unless
`init_atfs_inode` is given a page on which counts are left.
-/

namespace Atfs

open ByteMemory LinkedChain

/-! ## Agreement -/

/-- The entries that `gc_log_block` looks at. -/
def gcScan (m : Memory) (pageNode : Nat) : List Nat :=
  (List.range (ListNode.objCnt.get m pageNode)).map fun i =>
    ListNode.offset.get m pageNode + i * sizeofFileLogEntry % 2 ^ 32

/-- All pages of the entry are invalid. -/
def allInvalid (m : Memory) (entry : Nat) : Bool :=
  (List.range (FileLogEntry.numPages.get m entry)).all (entryInvalidPage m entry)

/-- The counters in the node of the log page `T` are those of the entries `es`, and the scan of the
page goes over these entries. -/
structure CountersAgree (m : Memory) (T : Nat) (es : List Nat) : Prop where
  objCnt : ListNode.objCnt.get m (T + 4096) = es.length
  pagesCnt : ListNode.pagesCnt.get m (T + 4096) = (es.map (FileLogEntry.numPages.get m ·)).sum
  invalidPages : ListNode.invalidPages.get m (T + 4096) =
    (es.map (FileLogEntry.invalidPages.get m ·)).sum
  invalidCnt : ListNode.invalidCnt.get m (T + 4096) = es.countP (allInvalid m)
  scan : gcScan m (T + 4096) = es

/-- On every page of a log chain the counters are those of the entries appended to it since it
joined the chain. -/
def Volume.CountersAgree (v : Volume) : Prop :=
  ∀ x ∈ v.files, ∀ T, OnChain v.state.mem x T →
    Atfs.CountersAgree v.state.mem T (sinceJoined T v.state.trace)

/-- `gc_log_block` takes the entries of the scan one after the other. -/
theorem gcEntries_scan (A : PageAllocator) (inode : Nat) (m : Memory) (pageNode : Nat) (g : GcVars)
    (s : State) :
    gcEntries A inode (ListNode.offset.get m pageNode) (ListNode.objCnt.get m pageNode) g s =
      (gcScan m pageNode).foldlM (fun r e => gcEntry A inode e r.1 r.2) (g, s) := by
  rw [gcScan]
  generalize ListNode.objCnt.get m pageNode = n
  induction n with
  | zero => rfl
  | succ n ih =>
    rw [gcEntries, ih, List.range_succ, List.map_append, List.foldlM_append]
    simp

section Agree

variable {P : LogPage} {m : Memory} {E : LogEntry}

theorem LogPage.Rep.allInvalid_eq (h : P.Rep m) (hE : E ∈ P.entries) :
    allInvalid m E.off = decide (E.invalidPages = E.pages.length) := by
  have hstored := h.stored E hE
  have hle := hstored.le
  have hcount : E.setBits = E.pages.length ↔ ∀ i < E.pages.length, E.invalid i = true := by
    have hall := List.countP_eq_length (p := (E.bitmap.testBit ·)) (l := List.range E.pages.length)
    rw [List.length_range] at hall
    exact hall.trans (by simp [LogEntry.invalid])
  rw [Bool.eq_iff_iff, decide_eq_true_iff, h.bits E hE, hcount, allInvalid, hstored.words.numPages,
    List.all_eq_true]
  refine forall_congr' fun i => ?_
  rw [List.mem_range]
  refine forall_congr' fun hi => ?_
  rw [entryInvalidPage_eq hstored.words (by omega)]

/-- The counters of a page of a log. -/
theorem LogPage.Rep.countersAgree (h : P.Rep m) :
    CountersAgree m P.page (P.entries.map (·.off)) := by
  obtain ⟨hobj, hinvCnt, hpagesCnt, hinvPages⟩ := Counters.ext_iff.1 h.counters
  have hlen := h.length_le
  refine ⟨?_, ?_, ?_, ?_, ?_⟩
  · rw [List.length_map]
    exact hobj
  · refine hpagesCnt.trans (congrArg List.sum ?_)
    rw [List.map_map]
    exact List.map_congr_left fun E hE => (h.stored E hE).words.numPages.symm
  · refine hinvPages.trans (congrArg List.sum ?_)
    rw [List.map_map]
    exact List.map_congr_left fun E hE => (h.stored E hE).words.invalidPages.symm
  · refine hinvCnt.trans ?_
    rw [List.countP_map]
    exact List.countP_congr fun E hE => by
      rw [Function.comp_apply, h.allInvalid_eq hE]
  · have hobj : ListNode.objCnt.get m (P.page + 4096) = P.entries.length := hobj
    rw [gcScan, hobj, h.offset, h.map_off]
    refine List.map_congr_left fun i hi => ?_
    rw [List.mem_range] at hi
    rw [show sizeofFileLogEntry = 48 from rfl, Nat.mod_eq_of_lt (by omega), Nat.mul_comm]

end Agree

/-! ## Runs -/

/-- The calls of a run, each with the volume it is made on. -/
inductive VolumeRun (A : PageAllocator) (v₀ : Volume) : List (Volume × VolumeCall) → Volume → Prop
  | nil : VolumeRun A v₀ [] v₀
  | snoc {steps : List (Volume × VolumeCall)} {v v' : Volume} {c : VolumeCall}
      (run : VolumeRun A v₀ steps v) (step : VolumeStep A v c v') :
      VolumeRun A v₀ (steps ++ [(v, c)]) v'

namespace Volume

section Run

variable {A : PageAllocator} {F : Set Nat} {logs : Nat → FileLog} {v v' : Volume} {s : State}
  {c : VolumeCall} {steps : List (Volume × VolumeCall)} {x : Nat}

theorem Sound.countersAgree (h : v.Sound A F logs) : v.CountersAgree := by
  intro x hx T hT
  obtain ⟨P, hP, rfl⟩ := (h.onChain_iff hx).1 hT
  rw [h.joined x hx P hP]
  exact ((h.log x hx).log.rep P hP).countersAgree

/-- A new inode whose log page has counts left. -/
theorem Sound.clean (h : v.Sound A F logs) (hstep : VolumeStep A v c v')
    (hagree : v'.CountersAgree) :
    v.Clean A c := by
  cases hstep with
  | home | append | invalidate | gc => trivial
  | @init x p s hp hin hapart hinit =>
    intro node m cpu halloc
    obtain ⟨f, m', cpu', hf, hkeep, halloc'⟩ := initAtfsInode_counters h hp hin hinit
    obtain ⟨rfl, -⟩ : node = f.page + 4096 ∧ _ := by simpa using halloc.symm.trans halloc'
    have hT := hf.holds.isPage
    have hchain : OnChain s.mem x f.page := by
      refine ⟨[], f.page, hf.logHead, ?_, by simp, by simp⟩
      rw [hf.logTail, hT.logPageOff_eq (by rw [mem_pageBytes]; omega)]
    have hnone : sinceJoined f.page s.trace = [] := by
      rw [hf.trace, sinceJoined, if_pos rfl]
    have hzero := hagree x List.mem_cons_self f.page hchain
    rw [hnone] at hzero
    rw [Nat.add_sub_cancel, ← hkeep]
    ext
    · exact hzero.objCnt
    · exact hzero.invalidCnt
    · exact hzero.pagesCnt
    · exact hzero.invalidPages

/-- A volume without files. -/
theorem sound_empty (hF : A.Rep s.mem F) : Volume.Sound A F (fun _ => ⟨0, [], ⟨0, []⟩⟩)
    ⟨s, [], []⟩ where
  rep := hF
  log := fun _ hx => absurd hx List.not_mem_nil
  joined := fun _ hx => absurd hx List.not_mem_nil
  home := fun _ hp => absurd hp List.not_mem_nil
  homes := fun _ hx => absurd hx List.not_mem_nil
  disjoint := fun _ hx => absurd hx List.not_mem_nil
  apart := fun _ hx => absurd hx List.not_mem_nil

/-- A run of which every new inode gets a page without counts keeps all logs. -/
theorem Sound.run {v₀ : Volume} (h : v₀.Sound A F logs) (run : VolumeRun A v₀ steps v)
    (hclean : ∀ p ∈ steps, p.1.Clean A p.2) : ∃ F' logs', v.Sound A F' logs' := by
  induction run with
  | nil => exact ⟨F, logs, h⟩
  | snoc run step ih =>
    obtain ⟨F', logs', h'⟩ := ih fun p hp => hclean p (List.mem_append_left _ hp)
    exact h'.step step (hclean _ (List.mem_append_right _ (List.mem_singleton_self _)))

end Run

/-! ## A new file -/

section NewFile

variable {A : PageAllocator} {F : Set Nat} {logs : Nat → FileLog} {v : Volume} {s : State}
  {x p n : Nat}

/-- With a page to spare on every list, one can take inodes. The nodes of the others stay as they
are. -/
theorem stocked_home (h : Stocked pageAllocator s.mem F (n + 1)) :
    ∃ s₁ p F₁, VolumeStep pageAllocator ⟨s, [], []⟩ .home ⟨s₁, [p], []⟩ ∧
      Volume.Sound pageAllocator F₁ (fun _ => ⟨0, [], ⟨0, []⟩⟩) ⟨s₁, [p], []⟩ ∧
      InodeIn p p ∧ p ∉ F₁ ∧
      Stocked pageAllocator s₁.mem F₁ n ∧ s₁.index = s.index ∧
      ∀ T ∈ F₁, T ∈ F ∧ counters s₁.mem T = counters s.mem T := by
  obtain ⟨node, s₁, F₁, halloc, hstock⟩ := Stocked.alloc (n := n) (k := 1) h
    pageAllocator_follows le_rfl (by decide)
  obtain ⟨p, l, F₂, rfl, hlen, hall⟩ := PageAllocator.allocFreePages_spec h.rep le_rfl halloc
  obtain rfl := pageAllocator_follows.rep_unique hstock.rep hall.rep
  obtain ⟨q, rfl⟩ : ∃ q, l = [q] := List.length_eq_one_iff.1 hlen
  obtain rfl : p = q := hall.chain.chain.head_eq
  have hoff : ListNode.offset.get s₁.mem (p + 4096) = p := hall.chain.offset p (by simp)
  have hin : InodeIn p p := ⟨hall.chain.page p (by simp), le_rfl, by
    rw [show sizeofAtfsInode = 216 from rfl]
    omega⟩
  have hhome := VolumeStep.home (v := ⟨s, [], []⟩) halloc
  obtain ⟨F', -, h₁⟩ := (sound_empty h.rep).takeHome halloc
  obtain rfl := pageAllocator_follows.rep_unique hstock.rep h₁.rep
  rw [hoff] at hhome h₁
  refine ⟨s₁, p, F₁, hhome, h₁, hin, fun hc => (hall.rest p hc).2 (by simp), hstock, hall.index,
    fun T hT => ⟨(hall.rest T hT).1, ?_⟩⟩
  exact counters_of_allocatorBytes (W := ∅) (pageAllocator.rep_page h.rep)
    (pageAllocator.rep_page h.rep T (hall.rest T hT).1)
    (hall.frame.mono Set.subset_union_left) (Set.empty_disjoint _)

/-- With two pages to spare, one of them can take inodes and the other the first log. -/
theorem stocked_init (h : Stocked pageAllocator s.mem F (n + 2)) :
    ∃ s₁ s₂ p F₁ F₂, VolumeStep pageAllocator ⟨s, [], []⟩ .home ⟨s₁, [p], []⟩ ∧
      VolumeStep pageAllocator ⟨s₁, [p], []⟩ (.init p) ⟨s₂, [p], [p]⟩ ∧
      Volume.Sound pageAllocator F₁ (fun _ => ⟨0, [], ⟨0, []⟩⟩) ⟨s₁, [p], []⟩ ∧ InodeIn p p ∧
      initAtfsInode pageAllocator s₁ p = .ok s₂ ∧ Stocked pageAllocator s₂.mem F₂ n ∧
      s₁.index = s.index ∧ ∀ T ∈ F₁, T ∈ F ∧ counters s₁.mem T = counters s.mem T := by
  obtain ⟨s₁, p, F₁, hhome, h₁, hin, hpF, hstock, hindex, hrest⟩ := stocked_home (n := n + 1) h
  obtain ⟨s₂, F₂, hinit, hstock₂⟩ := Stocked.initAtfsInode
    (n := n) hstock pageAllocator_follows hin hpF
  exact ⟨s₁, s₂, p, F₁, F₂, hhome, .init (List.mem_singleton_self p) hin
    (fun y hy => absurd hy List.not_mem_nil) hinit, h₁, hin, hinit, hstock₂, hindex, hrest⟩

/-- Where no free page has counts left, a new inode gets none. -/
theorem Sound.clean_of_counters (h : v.Sound A F logs) (hp : p ∈ v.homes) (hin : InodeIn x p)
    (hinit : initAtfsInode A v.state x = .ok s)
    (hzero : ∀ T ∈ F, counters v.state.mem T = ⟨0, 0, 0, 0⟩) :
    v.Clean A (.init x) := by
  obtain ⟨f, m, cpu, hf, -, halloc⟩ := initAtfsInode_counters h hp hin hinit
  intro node m' cpu' halloc'
  obtain ⟨rfl, -⟩ : f.page + 4096 = node ∧ _ := by simpa using halloc.symm.trans halloc'
  rw [Nat.add_sub_cancel]
  exact hzero f.page hf.fresh

/-- The free pages of the sample have no counts on them. -/
theorem fileState_free_counters {size : Nat} {body : Nat → Nat → UInt8} {index : Nat → Nat} :
    ∀ T ∈ fileFrontier.free, counters (fileState size body index).mem T = ⟨0, 0, 0, 0⟩ := by
  intro T hT
  have hrep : pageAllocator.Rep (fileState size body index).mem fileFrontier.free :=
    fileFrontier_holds.rep
  obtain ⟨k, -, rfl⟩ := pageAllocator.rep_page hrep T hT
  have hzero (g : Field 40) (hg : 16 ≤ g.off) (hg' : g.off + g.size ≤ 40) :
      g.get (fileState size body index).mem (pageOff k + 4096) = 0 := by
    refine (load_eq_of_bytes (v := 0) fun j hj => ?_).trans (Nat.zero_mod _)
    rw [Nat.add_assoc, Nat.add_assoc, fileState]
    simp only
    rw [Image.mem_page _ (by omega), if_neg (by omega), if_neg (by omega), if_neg (by omega)]
    simp
  rw [counters, hzero _ (by decide) (by decide), hzero _ (by decide) (by decide),
    hzero _ (by decide) (by decide), hzero _ (by decide) (by decide)]

/-- An empty volume with pages to spare. -/
def emptyVolume : Volume := ⟨fileState 0 (fun _ _ => 0) fun _ => offsetNull, [], []⟩

theorem emptyVolume_rep : pageAllocator.Rep emptyVolume.state.mem fileFrontier.free :=
    fileFrontier_holds.rep

/-- A volume with one file. An entry for a page is appended to its log, the page invalidated and the
log collected. -/
theorem emptyVolume_calls : ∃ (steps : List (Volume × VolumeCall)) (v : Volume) (x e pageOff : Nat),
    VolumeRun pageAllocator emptyVolume steps v ∧
      steps.map Prod.snd = [.home, .init x, .append x 1 10 0 10, .invalidate x e pageOff, .gc x] ∧
      ∀ p ∈ steps, p.1.Clean pageAllocator p.2 := by
  obtain ⟨s₁, s₂, x, F₁, F₂, hhome, hinit, h₁, hin, hok, hstock, -, hrest⟩ :=
    stocked_init (s := emptyVolume.state) (n := 62) fileState_stocked
  have hx : x ∈ [x] := List.mem_singleton_self x
  have hclean : Volume.Clean pageAllocator ⟨s₁, [x], []⟩ (.init x) :=
    h₁.clean_of_counters hx hin hok fun T hT => (hrest T hT).2.trans
      (fileState_free_counters T (hrest T hT).1)
  obtain ⟨f, -, h₂⟩ := h₁.init_empty hx hin (fun y hy => absurd hy List.not_mem_nil) hclean hok
  have hlast₂ : pageAllocator.Lasts 62 s₂.mem := hstock.lasts pageAllocator_follows
  obtain ⟨s₃, happend⟩ := (h₂.log x hx).appendEntry_ok (n := 1) 10 0 10
    le_rfl (by decide) (hlast₂.mono (by decide))
  obtain ⟨F₃, logs₃, E, h₃, hall, hlen, hbits, hlasts⟩ := h₂.append_entry hx le_rfl (by decide)
    (by decide) (by decide) (by decide) happend
  rw [Function.update_self] at hall
  have hall : entriesIn (logs₃ x).all = [E] := hall
  have hlast₃ := hlasts 60 (hlast₂.mono (by decide))
  obtain ⟨P, hP, hE⟩ := mem_entriesIn.1 (hall ▸ List.mem_singleton_self E)
  have hwords := (((h₃.log x hx).log.rep P hP).stored E hE).words
  obtain ⟨pageOff, hpos⟩ := exists_invalidatePos s₃.mem E.off (show 0 < 64 by decide)
  have hlive : LivePage s₃.mem E.off pageOff := by
    refine ⟨?_, ?_⟩
    · rw [hpos, hwords.numPages, hlen]
      exact Nat.one_pos
    · rw [hwords.bitmap, hbits]
      exact Nat.zero_testBit _
  have hT : OnChain s₃.mem x P.page := (h₃.onChain_iff hx).2 ⟨P, hP, rfl⟩
  have he : E.off ∈ sinceJoined P.page s₃.trace := by
    rw [h₃.joined x hx P hP]
    exact List.mem_map_of_mem hE
  obtain ⟨logs₄, h₄, hpages, heq⟩ := h₃.invalidate hx hT he hlive
  have hlast₄ := hlast₃.congr h₃.rep heq
  have hstep := VolumeStep.invalidate (A := pageAllocator) (v := ⟨s₃, [x], [x]⟩) hx hT he hlive
  generalize invalidateOldLogEntry s₃.mem E.off pageOff = m at h₄ hlast₄ hstep
  have hcount : (pagesOf (entriesIn (logs₄ x).all)).length = 1 := by
    rw [hpages, hall]
    simp [pagesOf, hlen]
  obtain ⟨fuel, s₅, hgc⟩ := h₄.gc_ok hx hlast₄ (by rw [hcount]; decide)
  refine ⟨_, _, x, E.off, pageOff, ((((VolumeRun.nil.snoc hhome).snoc hinit).snoc
    (.append hx le_rfl (by decide) (by decide) (by decide) (by decide) happend)).snoc hstep).snoc
    (.gc hx hgc), rfl, fun p hp => ?_⟩
  simp only [List.nil_append, List.cons_append, List.mem_cons, List.not_mem_nil, or_false] at hp
  rcases hp with rfl | rfl | rfl | rfl | rfl
  · trivial
  · exact hclean
  · trivial
  · trivial
  · trivial

end NewFile

/-! ## All runs -/

section Agreement

variable {A : PageAllocator} {F : Set Nat} {v : Volume} {s : State}
  {steps : List (Volume × VolumeCall)}

/-- Over every run from a volume without files, the counters of every log page agree with its
entries in every volume reached just if every new inode gets a page on which no counts are left. -/
theorem countersAgree_iff (hF : A.Rep s.mem F) (run : VolumeRun A ⟨s, [], []⟩ steps v) :
    (∀ u ∈ steps.map Prod.fst ++ [v], u.CountersAgree) ↔ ∀ p ∈ steps, p.1.Clean A p.2 := by
  have h := sound_empty hF
  constructor
  · intro hagree
    induction run with
    | nil => simp
    | @snoc steps v v' c run step ih =>
      rw [List.map_append, List.map_singleton] at hagree
      have hclean := ih fun u hu => hagree u (List.mem_append_left _ hu)
      obtain ⟨F', logs', h'⟩ := h.run run hclean
      have hlast := h'.clean step (hagree _ (List.mem_append_right _ (List.mem_singleton_self _)))
      rintro p hp
      rcases List.mem_append.1 hp with hp | hp
      · exact hclean p hp
      · rw [List.mem_singleton.1 hp]
        exact hlast
  · intro hclean
    induction run with
    | nil =>
      intro u hu
      rw [List.mem_singleton.1 hu]
      exact h.countersAgree
    | @snoc steps v v' c run step ih =>
      intro u hu
      rcases List.mem_append.1 hu with hu | hu
      · refine ih (fun p hp => hclean p (List.mem_append_left _ hp)) u ?_
        rwa [List.map_append, List.map_singleton] at hu
      · obtain ⟨F', logs', h'⟩ := h.run (run.snoc step) hclean
        rw [List.mem_singleton.1 hu]
        exact h'.countersAgree

theorem countersAgree_iff_sample : ∃ (steps : List (Volume × VolumeCall)) (v :
      Volume) (x e pageOff : Nat),
    VolumeRun pageAllocator emptyVolume steps v ∧
      steps.map Prod.snd = [.home, .init x, .append x 1 10 0 10, .invalidate x e pageOff, .gc x] ∧
      ∀ u ∈ steps.map Prod.fst ++ [v], u.CountersAgree := by
  obtain ⟨steps, v, x, e, pageOff, run, hcalls, hclean⟩ := emptyVolume_calls
  exact ⟨steps, v, x, e, pageOff, run, hcalls, (countersAgree_iff emptyVolume_rep run).2 hclean⟩

end Agreement

/-! ## A recycled page -/

/-- If the free pages have counts left on them, a new inode has a log page that counts entries it
does not have. -/
theorem stale_disagrees {F : Set Nat} {s : State} (hstock : Stocked pageAllocator s.mem F 2)
    (hstale : ∀ T ∈ F, ListNode.objCnt.get s.mem (T + 4096) ≠ 0) :
    ∃ steps v, VolumeRun pageAllocator ⟨s, [], []⟩ steps v ∧ ¬ v.CountersAgree := by
  obtain ⟨s₁, s₂, p, F₁, F₂, hhome, hinit, h₁, hin, hok, -, -, hrest⟩ :=
    stocked_init (n := 0) hstock
  refine ⟨_, _, (VolumeRun.nil.snoc hhome).snoc hinit, fun hagree => ?_⟩
  obtain ⟨f, m, cpu, hf, -, halloc⟩ := initAtfsInode_counters h₁ (List.mem_singleton_self p) hin hok
  have hzero := h₁.clean hinit hagree _ _ _ halloc
  rw [Nat.add_sub_cancel, (hrest f.page hf.fresh).2] at hzero
  exact hstale f.page (hrest f.page hf.fresh).1 (congrArg Counters.objCnt hzero)

/-- A file system whose free pages have held one entry each. -/
def staleState : State where
  mem := fun a =>
    if 114688 ≤ a ∧ (a - 114688) % 4136 = 4112 then 1
    else (fileState 0 (fun _ _ => 0) fun _ => offsetNull).mem a
  index := fun _ _ => offsetNull
  currentCpu := 0
  trace := []

theorem staleState_objCnt (k : Nat) :
    ListNode.objCnt.get staleState.mem (pageOff k + 4096) = 1 := by
  refine load_eq_of_bytes (v := 1) fun j hj => ?_
  simp only [ListNode.objCnt_off, ListNode.objCnt_size] at hj ⊢
  have hk := pageOff_eq k
  rw [Nat.add_assoc, Nat.add_assoc, staleState]
  simp only
  by_cases hj0 : j = 0
  · rw [if_pos (by omega), hj0]
    rfl
  · rw [if_neg (by omega), fileState]
    simp only
    rw [Image.mem_page _ (by omega), if_neg (by omega), if_neg (by omega), if_neg (by omega),
      Nat.div_eq_of_lt (Nat.one_lt_pow hj0 (by decide))]
    rfl

theorem staleState_stocked : Stocked pageAllocator staleState.mem fileFrontier.free 64 := by
  have hfile : Stocked pageAllocator (fileState 0 (fun _ _ => 0) fun _ => offsetNull).mem
      fileFrontier.free 64 := fileState_stocked
  refine hfile.congr_nodes pageAllocator_follows (fun a ha => ?_) fun p hp a ha => ?_
  · rw [pageListBytes, Set.mem_Ico] at ha
    exact if_neg (by omega)
  · obtain ⟨k, -, rfl⟩ := pageAllocator.rep_page hfile.rep p hp
    have hk := pageOff_eq k
    rw [nodeWords, Set.mem_Ico] at ha
    exact if_neg (by omega)

theorem staleState_disagrees :
    ∃ steps v, VolumeRun pageAllocator ⟨staleState, [], []⟩ steps v ∧ ¬ v.CountersAgree := by
  refine stale_disagrees (staleState_stocked.mono (by decide)) fun T hT => ?_
  obtain ⟨k, -, rfl⟩ := pageAllocator.rep_page staleState_stocked.rep T hT
  rw [staleState_objCnt]
  exact Nat.one_ne_zero

end Volume

end Atfs
