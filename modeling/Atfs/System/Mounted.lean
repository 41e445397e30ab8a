import Atfs.Library.MoveToFront
import Atfs.System.Basic

/-!
# What every section keeps

The region is a volume in which the tables, the creating calls and the list have the inodes, each
once. The inodes on the tables are empty files. Every section keeps this, as long as no open puts an
inode on the list that is there already, and leaves all files but the one it runs on.
-/

namespace Atfs

open ByteMemory LinkedChain LinkedRing LabelledRun

/-- The region of the system is a volume with these homes and files, tables and logs. -/
structure Mounted (b : Nat) (A : PageAllocator) (F : Set Nat) (logs : Nat → FileLog)
    (tables : Nat → List Nat) (homes files : List Nat) (s : System) : Prop where
  filed : Volume.Filed A F logs ⟨s.state, homes, files⟩
  tabled : Volume.Tabled tables (s.creating ++ s.listed) ⟨s.state, homes, files⟩
  unused : ∀ x ∈ allInodes tables, fileOf s.state x = .empty
  ring : Circle (linksOf b s.state.mem) (sListAddr b) (listNodes b s.listed)
  entered : ∀ p ∈ s.entered, p.1 ∈ s.listed
  collecting : ∀ x, s.collecting = some x → x ∈ s.listed

/-- The system is in order. -/
def System.Sound (b : Nat) (A : PageAllocator) (s : System) : Prop :=
  ∃ F logs tables homes files, Mounted b A F logs tables homes files s

/-- The files that have been handed out, as their users see them. -/
def System.views (s : System) (x : Nat) : Option PagedFile :=
  if x ∈ s.creating ++ s.listed then some (fileOf s.state x) else none

/-- The nodes of the list lie in the superblock and in its inodes. -/
theorem keepsNodes_of_eqOn {m m' : Memory} {l : List Nat} (hsuper : Set.EqOn m' m (Set.Iio 4095))
    (hnode : ∀ x ∈ l, ∀ a, x + 80 ≤ a → a < x + 216 → m' a = m a) : KeepsNodes l m m' := by
  rintro a ((ha | ha) | ⟨x, hx, ha, ha'⟩)
  · rw [Set.mem_Ico] at ha
    exact hsuper (show a < 4095 by omega)
  · rw [Set.mem_Ico] at ha
    exact hsuper (show a < 4095 by omega)
  · exact hnode x hx a (by omega) (by omega)

namespace Mounted

variable {b : Nat} {A : PageAllocator} {R : RadixTree} {F : Set Nat} {logs : Nat → FileLog}
  {tables : Nat → List Nat} {homes files : List Nat} {s : System} {t : State}
  {c : ListCall} {x y : Nat}

theorem listed_subset (h : Mounted b A F logs tables homes files s) : s.listed ⊆ files :=
    fun _ hx =>
  h.tabled.handed_subset (List.mem_append_right _ hx)

theorem located (h : Mounted b A F logs tables homes files s) : Located s.listed :=
  h.filed.sound.located h.listed_subset

/-- An inode is on a table, being created or on the list, and in one place only. -/
theorem disjoint (h : Mounted b A F logs tables homes files s) (hx : x ∈ allInodes tables) :
    x ∉ s.creating ++ s.listed := fun hc =>
  (List.nodup_append'.1 (h.tabled.all.nodup_iff.2 h.tabled.nodup)).2.2 hx hc

/-- The ring where its nodes are kept. -/
theorem ring_congr (h : Mounted b A F logs tables homes files s) (hb : Mapping b) {m : Memory}
    (hkeep : KeepsNodes s.listed s.state.mem m) :
    Circle (linksOf b m) (sListAddr b) (listNodes b s.listed) :=
      h.ring.congr (hkeep.agree hb h.located)

/-- The tables and the ring behind a section that works on one file. -/
theorem beside (h : Mounted b A F logs tables homes files s) (hb : Mapping b)
    (hm : Set.EqOn t.mem s.state.mem (Volume.besideBytes ⟨s.state, homes, files⟩)) :
    Volume.Tabled tables (s.creating ++ s.listed) ⟨t, homes, files⟩ ∧
      Circle (linksOf b t.mem) (sListAddr b) (listNodes b s.listed) := by
  have hinode {x a : Nat} (hx : x ∈ files) (ha : x + 80 ≤ a) (ha' : a < x + 216) :
      t.mem a = s.state.mem a :=
    hm (.inr ⟨x, hx, ha, ha'⟩)
  refine ⟨h.tabled.congr h.filed.sound (fun a ha => hm (.inl (.inr ha))) fun y hy => ?_, ?_⟩
  · refine Field.get_congr fun a ha => ?_
    rw [Field.bytes, AtfsInode.next_off, AtfsInode.next_size, Set.mem_Ico] at ha
    exact hinode hy (by omega) (by omega)
  · exact h.ring_congr hb (keepsNodes_of_eqOn (fun a ha => hm (.inl (.inl ha))) fun x hx a =>
      hinode (h.listed_subset hx))

/-! ### The list -/

/-- What a call is given is what it asks for. -/
theorem fits (h : Mounted b A F logs tables homes files s) (hgiven : c.Given s) :
    c.Fits s.listed := by
  have hnew {alloc : Nat} (halloc : alloc = offsetNull ∨ alloc ∈ s.creating) :
      Allocated s.listed alloc := by
    refine halloc.imp_right fun hmem => ?_
    have hfile := h.tabled.handed_subset (List.mem_append_left s.listed hmem)
    have hnodup := (List.nodup_append'.1 (h.tabled.all.nodup_iff.2 h.tabled.nodup)).2.1
    exact ⟨(List.nodup_append'.1 hnodup).2.2 hmem,
      h.filed.sound.located (List.cons_subset.2 ⟨hfile, h.listed_subset⟩)⟩
  cases c with
  | atfscreat fd lookup alloc => exact hgiven.imp_right hnew
  | atfsopen fd lookup alloc flags => exact hgiven.imp_right hnew
  | atfsread | atfswrite | atfspread | atfspwrite | startGcTask => exact hgiven

/-- The inodes on the list and those being created, behind a call. -/
theorem handed_perm (hc : ¬ c.Reinserts) (hgiven : c.Given s) (hfit : c.Fits s.listed) :
    (s.creating.diff c.inserted.toList ++ c.recency s.listed).Perm (s.creating ++ s.listed) := by
  have hmove {lookup : Nat} (hfound : Found s.listed lookup) :
      (touchFound s.listed lookup).Perm s.listed := by
    rw [touchFound]
    split_ifs with hnull
    · exact .refl _
    · exact (List.perm_cons_erase (hfound.resolve_left hnull)).symm
  have hinsert {alloc : Nat} (halloc : alloc ∈ s.creating) (hnew : Allocated s.listed alloc)
      (hne : alloc ≠ offsetNull) :
      (s.creating.diff [alloc] ++ touchFound s.listed alloc).Perm (s.creating ++ s.listed) := by
    rw [touchFound, if_neg hne, touch, List.erase_of_not_mem (hnew.resolve_left hne).1,
      List.diff_cons, List.diff_nil]
    exact List.perm_middle.trans ((List.perm_cons_erase halloc).symm.append_right s.listed)
  cases c with
  | atfscreat fd lookup alloc =>
    rw [ListCall.inserted, ListCall.recency]
    by_cases hin : lookup = offsetNull ∧ alloc ≠ offsetNull
    · rw [if_pos hin, if_pos hin.1]
      exact hinsert (hgiven.2.resolve_left hin.2) hfit.2 hin.2
    · rw [if_neg hin]
      split_ifs with hnull
      · rw [touchFound, if_pos (by tauto)]
        exact .refl _
      · exact .refl _
  | atfsopen fd lookup alloc flags =>
    rw [ListCall.inserted, ListCall.recency]
    by_cases hf : flags &&& InodeList.oCreat = 0
    · rw [if_pos hf, if_neg (by tauto)]
      exact .refl _
    · have hnull : lookup = offsetNull := by
        by_contra hne
        exact hc ⟨hne, hf⟩
      rw [if_neg hf, if_pos hnull]
      by_cases hne : alloc = offsetNull
      · rw [if_neg (by tauto), touchFound, if_pos hne]
        exact .refl _
      · rw [if_pos ⟨hf, hnull, hne⟩]
        exact hinsert (hgiven.2.resolve_left hne) hfit.2 hne
  | atfsread => exact (hmove hgiven).append_left _
  | atfswrite => exact (hmove hgiven).append_left _
  | atfspread => exact (hmove hgiven).append_left _
  | atfspwrite => exact (hmove hgiven).append_left _
  | startGcTask =>
    rw [ListCall.recency]
    cases hlast : s.listed.getLast? with
    | none => exact .refl _
    | some x => exact ((List.perm_cons_erase (List.mem_of_getLast? hlast)).symm).append_left _

theorem subset_recency (hfit : c.Fits s.listed) : s.listed ⊆ c.recency s.listed := by
  have htouch (x : Nat) : s.listed ⊆ touch s.listed x :=
    fun y hy => MoveToFront.mem_toFront.2 (.inr hy)
  have hfound (x : Nat) : s.listed ⊆ touchFound s.listed x := by
    rw [touchFound]
    split_ifs
    · exact List.Subset.refl _
    · exact htouch x
  cases c with
  | atfscreat fd lookup alloc =>
    rw [ListCall.recency]
    split_ifs
    · exact hfound alloc
    · exact List.Subset.refl _
  | atfsopen fd lookup alloc flags =>
    rw [ListCall.recency]
    split_ifs
    · exact List.Subset.refl _
    · exact hfound alloc
    · exact htouch lookup
  | atfsread => exact hfound _
  | atfswrite => exact hfound _
  | atfspread => exact hfound _
  | atfspwrite => exact hfound _
  | startGcTask =>
    rw [ListCall.recency]
    cases s.listed.getLast? with
    | none => exact List.Subset.refl _
    | some x => exact htouch x

/-- A call writes to the list and to the inodes on it. -/
theorem listStep_frame (h : Mounted b A F logs tables homes files s) (hb : Mapping b)
    (hgiven : c.Given s) (hc : ¬ c.Reinserts) : ChangesOnly (listedBytes files) s.state.mem
    (s.listStep b c).state.mem := by
  have hfit := h.fits hgiven
  refine (h.located.frame_exec hb hfit hc h.ring).mono (listedBytes_mono fun x hx => ?_)
  exact h.tabled.handed_subset ((handed_perm hc hgiven hfit).mem_iff.1 (List.mem_append_right _ hx))

/-- A call edits the list: all files stay what they are. -/
theorem listStep (h : Mounted b A F logs tables homes files s) (hb : Mapping b) (hgiven : c.Given s)
    (hc : ¬ c.Reinserts) : Mounted b A F logs tables homes files (s.listStep b c) ∧
      (s.listStep b c).views = s.views := by
  have hfit := h.fits hgiven
  obtain ⟨-, hring, -⟩ := h.located.circle_exec hb hfit hc h.ring
  have hperm := handed_perm hc hgiven hfit
  have hframe := h.listStep_frame hb hgiven hc
  have hsub : files ⊆ files := List.Subset.refl _
  obtain ⟨hfiled, hsame⟩ := h.filed.side (h.filed.sound.listed hsub hframe)
  have htabled : Volume.Tabled tables (s.creating ++ s.listed)
      ⟨(s.listStep b c).state, homes, files⟩ := by
    refine h.tabled.congr h.filed.sound (hframe.eqOn (Set.disjoint_left.2 fun a ha hc => ?_))
      fun y hy => ?_
    · rw [tableBytes, Set.mem_Ico] at hc
      rcases ha with ha | ⟨x, hx, ha⟩
      · rw [Set.mem_Ico] at ha
        omega
      · have := (h.filed.sound.log x (hsub hx)).inodeIn.bounds
        simp only [Field.bytes, AtfsInode.fd_off, AtfsInode.fd_size, AtfsInode.lNode_off,
          AtfsInode.lNode_size, Set.mem_union, Set.mem_Ico] at ha
        omega
    · refine hframe.get _ (Set.disjoint_left.2 fun a ha hc => ?_)
      have hb := (h.filed.sound.log y hy).inodeIn.bounds
      rw [Field.bytes, AtfsInode.next_off, AtfsInode.next_size, Set.mem_Ico] at hc
      rcases ha with ha | ⟨x, hx, ha⟩
      · rw [Set.mem_Ico] at ha
        omega
      · simp only [Field.bytes, AtfsInode.fd_off, AtfsInode.fd_size, AtfsInode.lNode_off,
          AtfsInode.lNode_size, Set.mem_union, Set.mem_Ico] at ha
        by_cases hyx : x = y
        · omega
        · have := h.filed.sound.apart x (hsub hx) y hy hyx
          omega
  have hlisted := subset_recency hfit
  refine ⟨⟨hfiled, ⟨htabled.holds, (hperm.append_left _).trans htabled.all, htabled.nodup⟩,
    fun x hx => ?_, hring, fun p hp => hlisted (h.entered p hp),
    fun x hx => hlisted (h.collecting x hx)⟩, funext fun x => ?_⟩
  · exact (hsame x (h.tabled.all.mem_iff.1 (List.mem_append_left _ hx))).trans (h.unused x hx)
  · rw [System.views, System.views, show (s.listStep b c).creating ++ (s.listStep b c).listed =
      s.creating.diff c.inserted.toList ++ c.recency s.listed from rfl]
    simp only [hperm.mem_iff]
    split_ifs with hx
    · exact congrArg some (hsame x (h.tabled.handed_subset hx))
    · rfl

/-! ### The other sections -/

/-- A section that works on one file leaves the others, and the rest of the region. -/
theorem fileStep (h : Mounted b A F logs tables homes files s) (hb : Mapping b)
    (hm : Set.EqOn t.mem s.state.mem (Volume.besideBytes ⟨s.state, homes, files⟩)) {F' : Set Nat}
    {logs' : Nat → FileLog} (hfiled : Volume.Filed A F' logs' ⟨t, homes, files⟩)
    (hsame : ∀ y ∈ files, y ∉ s.listed → fileOf t y = fileOf s.state y)
    {entered : List (Nat × Call)} (hentered : ∀ p ∈ entered, p ∈ s.entered)
    {collecting : Option Nat} (hcollecting : ∀ x, collecting = some x → s.collecting = some x) :
    Mounted b A F' logs' tables homes files ⟨t, s.listed, s.creating, entered, collecting,
      s.counters⟩ := by
  obtain ⟨htabled, hring⟩ := h.beside hb hm
  refine ⟨hfiled, htabled, fun x hx => ?_, hring, fun p hp => h.entered p (hentered p hp),
    fun x hx => h.collecting x (hcollecting x hx)⟩
  refine (hsame x (h.tabled.all.mem_iff.1 (List.mem_append_left _ hx)) fun hc => ?_).trans
    (h.unused x hx)
  exact h.disjoint hx (List.mem_append_right _ hc)

theorem views_eq (h : Mounted b A F logs tables homes files s) {u : System}
    (hlisted : u.listed = s.listed) (hcreating : u.creating = s.creating)
    (hsame : ∀ y ∈ files, fileOf u.state y = fileOf s.state y) :
    u.views = s.views := by
  funext y
  rw [System.views, System.views, hlisted, hcreating]
  split_ifs with hy
  · rw [hsame y (h.tabled.handed_subset hy)]
  · rfl

/-- What the threads are about is no part of the region. -/
theorem threads (h : Mounted b A F logs tables homes files s) {entered : List (Nat × Call)}
    {collecting : Option Nat} (counters : AccessCounters) (hentered : ∀ p ∈ entered, p.1 ∈ s.listed)
    (hcollecting : ∀ x, collecting = some x → x ∈ s.listed) :
    System.Sound b A ⟨s.state, s.listed, s.creating, entered, collecting, counters⟩ ∧
      FamilyStep .empty PagedFile.Step s.views .silent
        (System.views ⟨s.state, s.listed, s.creating, entered, collecting, counters⟩) :=
  ⟨⟨F, logs, tables, homes, files, h.filed, h.tabled, h.unused, h.ring, hentered, hcollecting⟩,
    .silent⟩

/-- A section that leaves all files, and that no user sees. -/
theorem quiet (h : Mounted b A F logs tables homes files s) (hb : Mapping b)
    (hm : Set.EqOn t.mem s.state.mem (Volume.besideBytes ⟨s.state, homes, files⟩)) {F' : Set Nat}
    {logs' : Nat → FileLog} (hfiled : Volume.Filed A F' logs' ⟨t, homes, files⟩)
    (hsame : ∀ y ∈ files, fileOf t y = fileOf s.state y) {collecting : Option Nat}
    (hcollecting : ∀ x, collecting = some x → s.collecting = some x) :
    System.Sound b A ⟨t, s.listed, s.creating, s.entered, collecting, s.counters⟩ ∧
      FamilyStep .empty PagedFile.Step s.views .silent
        (System.views ⟨t, s.listed, s.creating, s.entered, collecting, s.counters⟩) := by
  refine ⟨⟨F', logs', tables, homes, files, h.fileStep hb hm hfiled (fun y hy _ => hsame y hy)
    (fun _ hp => hp)
    hcollecting⟩, ?_⟩
  rw [h.views_eq (u := ⟨t, s.listed, s.creating, s.entered, collecting, s.counters⟩) rfl rfl hsame]
  exact .silent

/-- A call runs on a file that is on the list. -/
theorem call (h : Mounted b A F logs tables homes files s) (hA : TablesApart A) (hb : Mapping b)
    {c : Call} {a : Answer} (hx : x ∈ s.listed) (hfit : (viewOf s.state.mem x).Fits c)
    (hrun : answerCall A R x s.state c = .ok (a, t)) {entered : List (Nat × Call)}
    (hentered : ∀ p ∈ entered, p ∈ s.entered) :
    System.Sound b A { s with state := t, entered } ∧
      FamilyStep .empty PagedFile.Step s.views (.act x (c, a))
      { s with state := t, entered }.views := by
  have hfile := h.listed_subset hx
  obtain ⟨⟨F', logs', hfiled⟩, hstep, hother⟩ := h.filed.call hfile hfit hrun
  have hbeside := h.filed.call_beside hA hfile hfit hrun
  refine ⟨⟨F', logs', tables, homes, files, h.fileStep hb hbeside hfiled
    (fun y hy hyl => hother y hy ?_) hentered
    fun _ hc => hc⟩, ?_⟩
  · rintro rfl
    exact hyl hx
  · have hviews : System.views { s with state := t, entered } =
      Function.update s.views x (some (fileOf t x)) := by
      funext y
      by_cases hyx : y = x
      · subst hyx
        rw [Function.update_self]
        exact if_pos (List.mem_append_right _ hx)
      · rw [Function.update_of_ne hyx, System.views, System.views]
        split_ifs with hy
        · rw [hother y (h.tabled.handed_subset hy) hyx]
        · rfl
    rw [hviews]
    exact .act (if_pos (List.mem_append_right _ hx)) hstep

/-- An inode allocated is an empty file that no user has. -/
theorem alloc (h : Mounted b A F logs tables homes files s) (hA : TablesApart A) (R : RadixTree)
    (hb : Mapping b) (hclean : CleanAlloc A s.state)
    (halloc : allocAtfsInode A s.state = .ok (x, t)) :
    System.Sound b A { s with state := t, creating := x :: s.creating } ∧
      FamilyStep .empty PagedFile.Step s.views (.make x)
      { s with state := t, creating := x :: s.creating }.views := by
  obtain ⟨homes', files', tables', steps, run, hmakes, htabled, hsuper, hkeep⟩ :=
    h.filed.allocAtfsInode (R := R) hA.toKeepsTables h.tabled hclean halloc
  obtain ⟨F', logs', hfiled⟩ := h.filed.run run fun q hq => (hmakes q hq).stale
  obtain ⟨hold, hnew⟩ := h.filed.fileOf_makes run hmakes
  have hnodup := List.nodup_append'.1 (htabled.all.nodup_iff.2 htabled.nodup)
  -- what has not been handed out is empty, on a table or just made
  have hempty {y : Nat} (hy : y ∈ files') (hnot : y ∉ s.creating ++ s.listed) :
      fileOf t y = .empty := by
    by_cases hfile : y ∈ files
    · have htable := (List.mem_append.1 (h.tabled.all.mem_iff.2 hfile)).resolve_right hnot
      exact (hold y hfile).2.trans (h.unused y htable)
    · exact hnew y hy hfile
  have hnot : x ∉ s.creating ++ s.listed := (List.nodup_cons.1 hnodup.2.1).1
  have hx : fileOf t x = .empty := hempty (htabled.handed_subset List.mem_cons_self) hnot
  refine ⟨⟨F', logs', tables', homes', files', hfiled, htabled, fun y hy => ?_, ?_, h.entered,
    h.collecting⟩, ?_⟩
  · refine hempty (htabled.all.mem_iff.1 (List.mem_append_left _ hy)) fun hc => ?_
    exact hnodup.2.2 hy (List.mem_cons_of_mem _ hc)
  · refine h.ring_congr hb (keepsNodes_of_eqOn hsuper fun y hy a ha ha' => ?_)
    exact hkeep y (List.mem_append_right _ hy) (by rw [inodeBytes, Set.mem_Ico]; omega)
  · have hviews : System.views { s with state := t, creating := x :: s.creating } =
        Function.update s.views x (some .empty) := by
      funext y
      rw [System.views, List.cons_append]
      simp only [List.mem_cons]
      by_cases hyx : y = x
      · subst hyx
        rw [Function.update_self, if_pos (.inl rfl), hx]
      · rw [Function.update_of_ne hyx, System.views]
        simp only [hyx, false_or]
        split_ifs with hy
        · exact congrArg some (hold y (h.tabled.handed_subset hy)).2
        · rfl
    rw [hviews]
    exact .make (if_neg hnot)

/-- The inode that the collector takes is on the list. -/
theorem picked_mem (h : Mounted b A F logs tables homes files s) (hb : Mapping b)
    (hx : (InodeList.startGcTask b s.state.mem).1 = some x) : x ∈ s.listed := by
  rw [(h.located.recent hb h.ring).oldest] at hx
  exact List.mem_of_getLast? hx

end Mounted

/-- A system in order has its list in the order of recency. -/
theorem System.Sound.recent {b : Nat} {A : PageAllocator} {s : System} (hb : Mapping b)
    (h : s.Sound b A) :
    Recent b s.state.mem s.listed := by
  obtain ⟨F, logs, tables, homes, files, h⟩ := h
  exact h.located.recent hb h.ring

/-- Every section leaves the system in order, and users see the new files, the calls on them, and
nothing else. -/
theorem System.Sound.step {b : Nat} {A : PageAllocator} {R : RadixTree} {s s' : System}
    {c : SysCall} (hA : TablesApart A) (hb : Mapping b) (h : s.Sound b A)
    (hstep : SysStep b A R s c s') (hc : ¬ c.Reinserts) :
    s'.Sound b A ∧ FamilyStep .empty PagedFile.Step s.views c.event s'.views := by
  obtain ⟨F, logs, tables, homes, files, h⟩ := h
  cases hstep with
  | alloc hclean halloc => exact h.alloc hA R hb hclean halloc
  | create hcreates hgiven =>
    obtain ⟨h', hviews⟩ := h.listStep hb hgiven hc
    rw [hviews]
    exact ⟨⟨_, _, _, _, _, h'⟩, .silent⟩
  | @enter lookup c l hl hgiven =>
    obtain ⟨hplain, hfound, hrecency, -⟩ := Call.listCall_spec hl
    obtain ⟨h', hviews⟩ := h.listStep hb hgiven hplain
    rw [System.enter]
    split_ifs with hnull
    · rw [hviews]
      exact ⟨⟨_, _, _, _, _, h'⟩, .silent⟩
    · have hlisted : (s.listStep b l).listed = touch s.listed lookup :=
        (hrecency _).trans (if_neg hnull)
      rw [← hviews]
      refine h'.threads _ (fun p hp => ?_) h'.collecting
      rcases List.mem_cons.1 hp with rfl | hp
      · rw [hlisted]
        exact List.mem_cons_self
      · exact h'.entered p hp
  | run hentered hfit hrun =>
    refine h.call hA hb (h.entered _ (List.mem_of_getElem? hentered)) hfit hrun fun p hp => ?_
    exact (List.eraseIdx_sublist _ _).subset hp
  | lseek hx hfit hrun => exact h.call hA hb hx hfit hrun fun _ hp => hp
  | @invalidate x T e j q pageOff hx hlive hpos hstale =>
    have hfile := h.listed_subset hx
    obtain ⟨⟨logs', hfiled, -⟩, -, hsame⟩ := h.filed.invalidate hfile hlive hpos hstale
    have hbeside := h.filed.sound.invalidate_beside hfile hlive hpos
    generalize invalidateOldLogEntry s.state.mem e pageOff = m at hfiled hsame hbeside
    exact h.quiet (t := { s.state with mem := m }) hb hbeside hfiled hsame fun _ hx => hx
  | wake hidle =>
    change (s.woken b).Sound b A ∧ FamilyStep .empty PagedFile.Step s.views .silent
      (s.woken b).views
    rcases s.woken_cases b with ⟨hw, -⟩ | ⟨hw, -⟩
    · rw [hw]
      exact ⟨⟨_, _, _, _, _, h⟩, .silent⟩
    · obtain ⟨h', hviews⟩ := h.listStep (c := .startGcTask) hb trivial id
      rw [hw, ← hviews, System.take]
      refine h'.threads _ h'.entered fun x hx => ?_
      exact Mounted.subset_recency (s := s) (c := .startGcTask) trivial (h.picked_mem hb hx)
  | collect hx hgc =>
    have hfile := h.listed_subset (h.collecting _ hx)
    obtain ⟨⟨F', logs', hfiled⟩, -, hsame⟩ := h.filed.gc hfile hgc
    exact h.quiet hb (h.filed.sound.gc_beside hA hfile hgc) hfiled hsame fun _ hx =>
      absurd hx (by simp)

end Atfs
