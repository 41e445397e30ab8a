import Atfs.Volume.Supply

/-!
# Runs of the file system

Pages are taken for inodes, files are made and used, pages are invalidated and logs collected, in
whatever order. As long as no page is invalidated that an index still has, the index of every file
has pages of its log, and every file behaves as if nothing happened but the calls on it.
-/

namespace Atfs

open ByteMemory LinkedChain LabelledRun

/-! ## What users see -/

/-- The files of the volume, as their users see them. -/
def Volume.views (v : Volume) (x : Nat) : Option PagedFile :=
  if x ∈ v.files then some (fileOf v.state x) else none

/-- What users see of a call. -/
def FsCall.event : FsCall → FamilyEvent Nat (Call × Answer)
  | .init x => .make x
  | .call x c a => .act x (c, a)
  | .home => .silent
  | .invalidate _ _ _ => .silent
  | .gc _ => .silent
  | .side => .silent

/-- The call on the file `x`, with its answer. -/
def FsCall.callOn (x : Nat) : FsCall → Option (Call × Answer)
  | .call y c a => if y = x then some (c, a) else none
  | _ => none

theorem FsCall.actOn_event (c : FsCall) (x : Nat) : c.event.actOn x = c.callOn x := by
  cases c <;> rfl

namespace Volume

section Run

variable {A : PageAllocator} {R : RadixTree} {F : Set Nat} {logs : Nat → FileLog} {v v' : Volume}
  {s : State} {c : FsCall} {steps : List (Volume × FsCall)} {x : Nat}

theorem views_eq {homes : List Nat} (h : ∀ y ∈ v.files, fileOf s y = fileOf v.state y) :
    Volume.views ⟨s, homes, v.files⟩ = v.views := by
  funext y
  rw [views, views]
  split_ifs with hy
  · rw [h y hy]
  · rfl

theorem views_update (hx : x ∈ v.files) (h : ∀ y ∈ v.files, y ≠ x → fileOf s y = fileOf v.state y) :
    Volume.views ⟨s, v.homes, v.files⟩ = Function.update v.views x (some (fileOf s x)) := by
  funext y
  by_cases hyx : y = x
  · subst hyx
    rw [Function.update_self, views, if_pos hx]
  · rw [Function.update_of_ne hyx, views, views]
    split_ifs with hy
    · rw [h y hy hyx]
    · rfl

theorem views_cons (hx : fileOf s x = .empty) (h : ∀ y ∈ v.files, fileOf s y = fileOf v.state y) :
    Volume.views ⟨s, v.homes, x :: v.files⟩ = Function.update v.views x (some .empty) := by
  funext y
  by_cases hyx : y = x
  · subst hyx
    rw [Function.update_self, views, if_pos List.mem_cons_self, hx]
  · rw [Function.update_of_ne hyx, views, views]
    simp only [List.mem_cons, hyx, false_or]
    split_ifs with hy
    · rw [h y hy]
    · rfl

/-- A call leaves the volume in order if it invalidates no page that an index has, and users see it
as a call on the file it is for, or not at all. -/
theorem Filed.fsStep (h : v.Filed A F logs) (hstep : FsStep A R v c v') (hstale : v.Stale c) :
    (∃ F' logs', v'.Filed A F' logs') ∧
    FamilyStep .empty PagedFile.Step v.views c.event v'.views := by
  cases hstep with
  | home halloc =>
    obtain ⟨h', hsame⟩ := h.home halloc
    refine ⟨h', ?_⟩
    rw [views_eq hsame]
    exact .silent
  | init hp hin hapart hclean hinit =>
    obtain ⟨h', hnew, hsame⟩ := h.init hp hin hapart hclean hinit
    refine ⟨h', ?_⟩
    rw [views_cons hnew hsame]
    refine .make (if_neg fun hc => ?_)
    have := hapart _ hc
    omega
  | call hx hfit hrun =>
    obtain ⟨h', hcall, hsame⟩ := h.call hx hfit hrun
    refine ⟨h', ?_⟩
    rw [views_update hx hsame]
    exact .act (if_pos hx) hcall
  | invalidate hx hlive hpos =>
    obtain ⟨⟨logs', h', -⟩, -, hsame⟩ := h.invalidate hx hlive hpos fun key => by
      rw [← hlive.invalidatedPage_eq hpos]
      exact hstale key
    refine ⟨⟨F, logs', h'⟩, ?_⟩
    rw [views_eq hsame]
    exact .silent
  | gc hx hgc =>
    obtain ⟨h', -, hsame⟩ := h.gc hx hgc
    refine ⟨h', ?_⟩
    rw [views_eq hsame]
    exact .silent
  | side hside =>
    obtain ⟨h', hsame⟩ := h.side hside
    refine ⟨⟨F, logs, h'⟩, ?_⟩
    rw [views_eq hsame]
    exact .silent

/-- So do runs of such calls. -/
theorem Filed.run (h : v.Filed A F logs) (run : Run (FsStep A R) v steps v')
    (hstale : ∀ p ∈ steps, p.1.Stale p.2) :
    ∃ F' logs', v'.Filed A F' logs' := by
  refine run.always (J := fun u => ∃ F logs, u.Filed A F logs) ⟨F, logs, h⟩ ?_ hstale v'
    (by simp [visited])
  rintro u c u' ⟨F, logs, hu⟩ hstep hstale
  exact (hu.fsStep hstep hstale).1

theorem Filed.stale (h : v.Filed A F logs) (hstep : FsStep A R v c v') (hindexed : v'.Indexed) :
    v.Stale c := by
  cases hstep with
  | home | init | call | gc | side => trivial
  | invalidate hx hlive hpos =>
    intro key hkey
    rw [hlive.invalidatedPage_eq hpos] at hkey
    exact h.not_indexed hx hlive hpos hkey hindexed

/-- A volume without files and with nothing in any index. -/
theorem filed_empty (hF : A.Rep s.mem F) (hnone : ∀ x key, s.index x key = offsetNull) :
    Volume.Filed A F (fun _ => ⟨0, [], ⟨0, []⟩⟩) ⟨s, [], []⟩ where
  sound := sound_empty hF
  indexed := fun _ hx => absurd hx List.not_mem_nil
  unindexed := fun x _ => hnone x

theorem emptyVolume_index (x key : Nat) : emptyVolume.state.index x key = offsetNull := by
  rw [emptyVolume, fileState]
  simp

theorem stale_of_calls {steps : List (Volume × FsCall)}
    (h : ∀ c ∈ steps.map Prod.snd, ∀ x e o, c ≠ .invalidate x e o) :
    ∀ p ∈ steps, p.1.Stale p.2 := by
  intro p hp
  have hne := h p.2 (List.mem_map_of_mem hp)
  cases hc : p.2 with
  | invalidate x e o => exact absurd hc (hne x e o)
  | home | init | call | gc | side => trivial

/-- A file made on it. -/
theorem emptyVolume_file : ∃ (steps : List (Volume × FsCall)) (s : State) (x : Nat),
    Run (FsStep pageAllocator radixTree) emptyVolume steps ⟨s, [x], [x]⟩ ∧
      steps.map Prod.snd = [.home, .init x] ∧
      Ample pageAllocator 62 x 0 ⟨s, [x], [x]⟩ := by
  obtain ⟨s₁, s, x, F₁, F₂, hhome, hinit, h₁, hin, hok, hstock, hindex, hrest⟩ :=
    stocked_init (n := 62) (s := emptyVolume.state) fileState_stocked
  have hclean : Volume.Clean pageAllocator ⟨s₁, [x], []⟩ (.init x) :=
    h₁.clean_of_counters (List.mem_singleton_self x) hin hok fun T hT => (hrest T hT).2.trans
      (fileState_free_counters T (hrest T hT).1)
  obtain ⟨f, hf, h₂⟩ := h₁.init_empty (List.mem_singleton_self x) hin
    (fun y hy => absurd hy List.not_mem_nil) hclean hok
  have hnone (y key : Nat) : s.index y key = offsetNull := by
    rw [hf.index, hindex]
    exact emptyVolume_index y key
  have run₁ := Run.nil.snoc (FsStep.of_home (R := radixTree) hhome)
  refine ⟨_, s, x, run₁.snoc (FsStep.of_init hinit hclean), rfl,
    hstock.lasts pageAllocator_follows, _, _,
    ⟨h₂, fun y _ key hkey => absurd (hnone y key) hkey, fun y _ => hnone y⟩, ?_⟩
  rw [Function.update_self]
  rfl

/-- Ten bytes are written to the file, and written again. The page that is not needed any more is
invalidated. -/
theorem emptyVolume_replaced : ∃ (steps : List (Volume × FsCall)) (v : Volume) (x e pageOff : Nat),
    Run (FsStep pageAllocator radixTree) emptyVolume steps v ∧ x ∈ v.files ∧
      steps.map Prod.snd = [.home, .init x, .call x (.pwrite UInt8.ofNat 10 0) (.value (10 : Nat)),
        .call x (.pwrite (fun _ => 7) 10 0) (.value (10 : Nat)), .invalidate x e pageOff] ∧
      (∀ p ∈ steps, p.1.Stale p.2) ∧ Ample pageAllocator 58 x 2 v := by
  obtain ⟨steps, s₂, x, run, hsteps, h₂⟩ := emptyVolume_file
  have hx : x ∈ [x] := List.mem_singleton_self x
  have hfit (s : State) (buf : Memory) : (viewOf s.mem x).Fits (.pwrite buf 10 0) :=
    show 0 + 10 < 2 ^ 64 by decide
  obtain ⟨s₃, hcall₃, h₃, hpages₃⟩ := Ample.pwrite (n := 60) 10 0 h₂ hx radixTree UInt8.ofNat
    (by decide) (by decide)
  obtain ⟨s₄, hcall₄, h₄, hpages₄⟩ := Ample.pwrite (n := 58) 10 0 h₃ hx radixTree (fun _ => 7)
    (by decide) (by decide)
  have hreplaced := (hpages₄ 0 (by decide) (by decide)).2 (hpages₃ 0 (by decide) (by decide)).1
  obtain ⟨T, e, j, pageOff, hlive, hpos, h₅⟩ := h₄.invalidate hx hreplaced
  have run₃ := run.snoc (FsStep.call (v := ⟨s₂, [x], [x]⟩) hx (hfit _ _) hcall₃)
  have run₄ := run₃.snoc (FsStep.call (v := ⟨s₃, [x], [x]⟩) hx (hfit _ _) hcall₄)
  have run₅ := run₄.snoc (FsStep.invalidate (v := ⟨s₄, [x], [x]⟩) hx hlive hpos)
  refine ⟨_, _, x, e, pageOff, run₅, hx, ?_, ?_, h₅⟩
  · simp only [List.map_append, hsteps]
    rfl
  · have hstale : ∀ p ∈ steps, p.1.Stale p.2 := by
      refine stale_of_calls fun c hc y e o => ?_
      rw [hsteps] at hc
      rcases List.mem_cons.1 hc with rfl | hc
      · exact FsCall.noConfusion
      · obtain rfl := List.mem_singleton.1 hc
        exact FsCall.noConfusion
    intro p hp
    simp only [List.mem_append, List.mem_singleton] at hp
    rcases hp with ((hp | rfl) | rfl) | rfl
    · exact hstale p hp
    · trivial
    · trivial
    · intro key
      rw [hlive.invalidatedPage_eq hpos]
      exact hreplaced.2 key

/-- Then its log is collected. -/
theorem emptyVolume_run : ∃ (steps : List (Volume × FsCall)) (v : Volume) (x e pageOff : Nat),
    Run (FsStep pageAllocator radixTree) emptyVolume steps v ∧ x ∈ v.files ∧
      steps.map Prod.snd = [.home, .init x, .call x (.pwrite UInt8.ofNat 10 0) (.value (10 : Nat)),
        .call x (.pwrite (fun _ => 7) 10 0) (.value (10 : Nat)), .invalidate x e pageOff, .gc x] ∧
      ∀ p ∈ steps, p.1.Stale p.2 := by
  obtain ⟨steps, v, x, e, pageOff, run, hx, hsteps, hstale, h⟩ := emptyVolume_replaced
  obtain ⟨fuel, s, hgc⟩ := h.gc hx (by decide)
  refine ⟨_, _, x, e, pageOff, run.snoc (FsStep.gc hx hgc), hx, ?_, fun p hp => ?_⟩
  · rw [List.map_append, hsteps]
    rfl
  · rcases List.mem_append.1 hp with hp | hp
    · exact hstale p hp
    · obtain rfl := List.mem_singleton.1 hp
      trivial

/-- Over every run from an empty volume, the indices have valid pages of the logs, for the pages of
the files they hold, in every volume reached just if no page is invalidated that an index has. -/
theorem indexed_iff (hF : A.Rep s.mem F) (hnone : ∀ x key, s.index x key = offsetNull)
    (run : Run (FsStep A R) ⟨s, [], []⟩ steps v) :
    (∀ u ∈ visited steps v, u.Indexed) ↔ ∀ p ∈ steps, p.1.Stale p.2 := by
  refine run.always_iff (J := fun u => ∃ F logs, u.Filed A F logs)
    ⟨F, _, filed_empty hF hnone⟩ ?_ ?_ ?_
  · rintro u ⟨F, logs, hu⟩
    exact hu.indexed_mem
  · rintro u c u' ⟨F, logs, hu⟩ hstep hstale
    exact (hu.fsStep hstep hstale).1
  · rintro u c u' ⟨F, logs, hu⟩ hstep hindexed
    exact hu.stale hstep hindexed

theorem indexed_iff_sample : ∃ (steps : List (Volume × FsCall)) (v : Volume) (x e pageOff : Nat),
    Run (FsStep pageAllocator radixTree) emptyVolume steps v ∧
      steps.map Prod.snd = [.home, .init x, .call x (.pwrite UInt8.ofNat 10 0) (.value (10 : Nat)),
        .call x (.pwrite (fun _ => 7) 10 0) (.value (10 : Nat)), .invalidate x e pageOff, .gc x] ∧
      ∀ u ∈ visited steps v, u.Indexed := by
  obtain ⟨steps, v, x, e, pageOff, run, -, hcalls, hstale⟩ := emptyVolume_run
  exact ⟨steps, v, x, e, pageOff, run, hcalls,
    (indexed_iff emptyVolume_rep emptyVolume_index run).2 hstale⟩

/-- The views of a run make a run of files that only the calls on them change. -/
theorem views_run (hF : A.Rep s.mem F) (hnone : ∀ x key, s.index x key = offsetNull)
    (run : Run (FsStep A R) ⟨s, [], []⟩ steps v) (hstale : ∀ p ∈ steps, p.1.Stale p.2) :
    Run (FamilyStep .empty PagedFile.Step) (fun _ => none)
      (steps.map fun p => (p.1.views, p.2.event)) v.views := by
  have h₀ : (∃ F logs, Volume.Filed A F logs ⟨s, [], []⟩) ∧
      (fun _ => none) = Volume.views ⟨s, [], []⟩ :=
    ⟨⟨F, _, filed_empty hF hnone⟩, funext fun _ => (if_neg List.not_mem_nil).symm⟩
  have hstep : ∀ u c u' fs, ((∃ F logs, Volume.Filed A F logs u) ∧ fs = u.views) →
    FsStep A R u c u' →
      u.Stale c → ∃ fs', FamilyStep .empty PagedFile.Step fs c.event fs' ∧
        (∃ F logs, Volume.Filed A F logs u') ∧ fs' = u'.views := by
    rintro u c u' - ⟨⟨F, logs, hu⟩, rfl⟩ hstep hstale
    obtain ⟨hu', hfs⟩ := hu.fsStep hstep hstale
    exact ⟨_, hfs, hu', rfl⟩
  obtain ⟨asteps, fs, arun, ⟨-, rfl⟩, hall⟩ := run.refines h₀ hstep hstale
  obtain rfl : asteps = steps.map fun p => (p.1.views, p.2.event) := by
    clear run arun hstale
    induction hall with
    | nil => rfl
    | cons head rest ih =>
      rw [List.map_cons, ← ih]
      exact congrArg (· :: _) (Prod.ext head.1.2 head.2)
  exact arun

theorem filterMap_callOn_views (steps : List (Volume × FsCall)) (x : Nat) :
    (steps.filterMap fun p => p.2.callOn x) =
      ((steps.map fun p => (p.1.views, p.2.event)).map Prod.snd).filterMap
        (FamilyEvent.actOn x) := by
  rw [List.map_map, List.filterMap_map]
  exact List.filterMap_congr fun p _ => (p.2.actOn_event x).symm

/-- In any run, whatever happens between them, the calls on a file are those of a run of this file
alone, with the same answers. -/
theorem fileOf_run (hF : A.Rep s.mem F) (hnone : ∀ x key, s.index x key = offsetNull)
    (run : Run (FsStep A R) ⟨s, [], []⟩ steps v) (hstale : ∀ p ∈ steps, p.1.Stale p.2)
    (hx : x ∈ v.files) :
    ∃ fsteps, Run PagedFile.Step .empty fsteps (fileOf v.state x) ∧
      fsteps.map Prod.snd = steps.filterMap fun p => p.2.callOn x := by
  rw [filterMap_callOn_views]
  exact (views_run hF hnone run hstale).member (if_pos hx)

theorem filterMap_callOn (steps : List (Volume × FsCall)) (x : Nat) :
    (steps.filterMap fun p => p.2.callOn x) = (steps.map Prod.snd).filterMap (FsCall.callOn x) := by
  rw [List.filterMap_map]
  rfl

theorem fileOf_run_sample : ∃ (steps : List (Volume × FsCall)) (v : Volume) (x e pageOff : Nat)
    (fsteps : List (PagedFile × (Call × Answer))), steps.map Prod.snd =
        [.home, .init x, .call x (.pwrite UInt8.ofNat 10 0) (.value (10 : Nat)),
          .call x (.pwrite (fun _ => 7) 10 0) (.value (10 : Nat)), .invalidate x e pageOff, .gc x] ∧
      Run PagedFile.Step .empty fsteps (fileOf v.state x) ∧
      fsteps.map Prod.snd = [(.pwrite UInt8.ofNat 10 0, .value (10 : Nat)),
        (.pwrite (fun _ => 7) 10 0, .value (10 : Nat))] := by
  obtain ⟨steps, v, x, e, pageOff, run, hx, hcalls, hstale⟩ := emptyVolume_run
  obtain ⟨fsteps, frun, hown⟩ := fileOf_run emptyVolume_rep emptyVolume_index run hstale hx
  refine ⟨steps, v, x, e, pageOff, fsteps, hcalls, frun, hown.trans ?_⟩
  rw [filterMap_callOn, hcalls]
  simp [FsCall.callOn, List.filterMap_cons]

end Run

end Volume

end Atfs
