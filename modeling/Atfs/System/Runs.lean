import Atfs.System.Start

/-!
# Runs of the program

From a region as its initialisation is to leave it, with the sections of any number of threads in
any order. The inode list is in the order of recency as long as no open inserts an inode that is on
it already; the collector then takes the inode that has not been touched for longest, and comes to
every one. No inode is handed out twice, and every file answers as if it was alone.
-/

namespace Atfs

open ByteMemory LinkedChain LinkedRing LabelledRun MoveToFront

/-- The inode that a section allocates. -/
def SysCall.allocated : SysCall → Option Nat
  | .alloc x => some x
  | _ => none

/-- The inode that the collector takes. -/
def SysCall.picked : SysCall → Option Nat
  | .wake picked => picked
  | _ => none

/-- A read or a write that has found its file. -/
def SysCall.Counted : SysCall → Prop
  | .enter lookup _ => lookup ≠ offsetNull
  | _ => False

namespace System

variable {b : Nat} {A : PageAllocator} {R : RadixTree} {s₀ : State} {s s' u : System} {c : SysCall}
  {steps : List (System × SysCall)} {x y : Nat}

section Order

/-- Inserting an inode that is on the list breaks the list. -/
theorem Sound.not_reinserts (hb : Mapping b) (h : s.Sound b A) (hstep : SysStep b A R s c s')
    (hrecent : Recent b s'.state.mem s'.listed) : ¬ c.Reinserts := by
  obtain ⟨F, logs, tables, homes, files, h⟩ := h
  intro hc
  cases hstep with
  | create hcreates hgiven =>
    exact (h.located.not_circle_exec hb (h.fits hgiven) hc h.ring).2 hrecent.ring
  | alloc | enter | run | lseek | invalidate | wake | collect => exact hc

/-- Over every run the list is a ring in the order of recency, of which the collector takes the
last, in every state reached just if no open with `O_CREAT` finds its inode. -/
theorem listed_recent_iff (hA : TablesApart A) (hb : Mapping b) (h : FreshRegion b A s₀)
    (run : Run (SysStep b A R) (start s₀) steps s) :
    (∀ u ∈ visited steps s, Recent b u.state.mem u.listed) ↔ ∀ p ∈ steps, ¬ p.2.Reinserts :=
  run.always_iff (J := System.Sound b A) (sound_start h) (fun _ hu => hu.recent hb)
    (fun _ _ _ hu hstep hc => (hu.step hA hb hstep hc).1) fun _ _ _ hu hstep =>
      hu.not_reinserts hb hstep

/-- In the sample the list stays in order. -/
theorem listed_recent_iff_sample : ∃ (steps : List (System × SysCall)) (s : System) (x y :
      Nat) (a : Answer),
    Run (SysStep (2 ^ 20) volumeAllocator radixTree) (start freshState) steps s ∧
      steps.map Prod.snd = [.alloc y, .alloc x, .create (.atfscreat 3 offsetNull y),
        .create (.atfscreat 4 offsetNull x), .enter x readCall, .wake (some y), .run x readCall a,
        .collect y, .enter y readCall, .wake (some x)] ∧
      ∀ u ∈ visited steps s, Recent (2 ^ 20) u.state.mem u.listed := by
  obtain ⟨before, mid, u, w, s, x, y, a, run₀, run, hbefore, hmid, -, -, hplain⟩ :=
    picked_run radixTree
  have hrun := run₀.append run
  have hiff := listed_recent_iff volumeAllocator_tablesApart mapping_freshState
    freshState_region hrun
  refine ⟨_, s, x, y, a, hrun, ?_, hiff.2 hplain⟩
  simp only [List.map_append, List.map_cons, List.map_nil, hbefore, hmid]
  rfl

theorem sound_of_run (hA : TablesApart A) (hb : Mapping b) (h : u.Sound b A)
    (run : Run (SysStep b A R) u steps s) (hplain : ∀ p ∈ steps, ¬ p.2.Reinserts) : s.Sound b A :=
  run.always h (fun _ _ _ hu hstep hc => (hu.step hA hb hstep hc).1) hplain s (by simp [visited])

/-- The recorded order is that of the touches. -/
theorem Sound.listed_step (hb : Mapping b) (h : s.Sound b A) (hstep : SysStep b A R s c s')
    (hc : ¬ c.Reinserts) :
    s'.listed = c.touched.elim s.listed (toFront s.listed) := by
  obtain ⟨-, -, holdest⟩ := h.recent hb
  cases hstep with
  | create hcreates hgiven => exact ListCall.recency_creates hcreates hc s.listed
  | @enter lookup c l hl hgiven =>
    obtain ⟨-, -, hrecency, -⟩ := Call.listCall_spec hl
    rw [enter, SysCall.touched, hl]
    split_ifs with hnull
    · exact (hrecency _).trans (if_pos hnull)
    · exact (hrecency _).trans (if_neg hnull)
  | wake hidle =>
    change (s.woken b).listed = (s.woken b).collecting.elim s.listed (toFront s.listed)
    rcases s.woken_cases b with ⟨hw, -⟩ | ⟨hw, -⟩
    · rw [hw, hidle]
      rfl
    · rw [hw, take_collecting, take_listed, holdest]
      rfl
  | alloc | run | lseek | invalidate | collect => rfl

/-- The list after a run: the touches, the last one first. -/
theorem listed_run (hA : TablesApart A) (hb : Mapping b) (h : u.Sound b A)
    (run : Run (SysStep b A R) u steps s) (hplain : ∀ p ∈ steps, ¬ p.2.Reinserts) :
    s.listed = afterUses u.listed (steps.filterMap fun p => p.2.touched) := by
  induction run with
  | nil => rfl
  | @snoc steps s s' c run hstep ih =>
    have hplain' : ∀ p ∈ steps, ¬ p.2.Reinserts := fun p hp => hplain p (List.mem_append_left _ hp)
    have hs := sound_of_run hA hb h run hplain'
    rw [hs.listed_step hb hstep (hplain (s, c) (by simp)), ih hplain', List.filterMap_append]
    cases hc : c.touched with
    | none => simp [hc]
    | some x => simp [hc, afterUses_concat]

/-- The collector takes the last inode of the list. -/
theorem Sound.picked_last (hb : Mapping b) (h : s.Sound b A) (hstep : SysStep b A R s c s')
    (hpicked : c.picked = some x) : s.listed.getLast? = some x := by
  cases hstep with
  | wake hidle =>
    change (s.woken b).collecting = some x at hpicked
    rcases s.woken_cases b with ⟨hw, -⟩ | ⟨hw, -⟩
    · rw [hw, hidle] at hpicked
      cases hpicked
    · rw [hw, take_collecting] at hpicked
      exact (h.recent hb).oldest.symm.trans hpicked
  | _ => cases hpicked

/-- The collector takes the inode that has not been touched for longest: since it was touched last,
every other inode of the list has been. -/
theorem picked_least_recent (hA : TablesApart A) (hb : Mapping b) (h : FreshRegion b A s₀)
    (run : Run (SysStep b A R) (start s₀) steps s) (hplain : ∀ p ∈ steps, ¬ p.2.Reinserts)
    (hstep : SysStep b A R s c s') (hpicked : c.picked = some x) :
    x ∈ s.listed ∧ ∀ y ∈ s.listed, y ≠ x → ∃ pre p post, steps = pre ++ p :: post ∧
      p.2.touched = some y ∧
      ∀ q ∈ post, q.2.touched ≠ some x := by
  have hs := sound_of_run hA hb (sound_start h) run hplain
  have hlast := hs.picked_last hb hstep hpicked
  refine ⟨List.mem_of_getLast? hlast, fun y hy hyx => ?_⟩
  have hbefore := sublist_getLast hlast hy hyx
  rw [listed_run hA hb (sound_start h) run hplain] at hbefore
  rcases used_since List.nodup_nil hbefore with ⟨hnil, -⟩ | ⟨pre, post, huses, hx⟩
  · cases hnil
  · obtain ⟨pre', rest, rfl, -, hrest⟩ := List.filterMap_eq_append_iff.1 huses
    obtain ⟨before, p, post', rfl, -, hp, rfl⟩ := List.filterMap_eq_cons_iff.1 hrest
    refine ⟨pre' ++ before, p, post', by simp, hp, fun q hq hc => hx ?_⟩
    exact List.mem_cons_of_mem _ (List.mem_filterMap.2 ⟨q, hq, hc⟩)

/-- In the sample `y` is taken: `x` has been read since it was touched. -/
theorem picked_least_recent_sample : ∃ (pre post : List (System × SysCall)) (p : System × SysCall)
    (u s : System) (x y : Nat),
    Run (SysStep (2 ^ 20) volumeAllocator radixTree) (start freshState) (pre ++ p :: post) u ∧
      SysStep (2 ^ 20) volumeAllocator radixTree u (.wake (some y)) s ∧ u.listed = [x, y] ∧ x ≠ y ∧
      p.2.touched = some x ∧ ∀ q ∈ post, q.2.touched ≠ some y := by
  obtain ⟨before, mid, u, w, s, x, y, a, run₀, run, -, -, hlisted, hxy, hplain⟩ :=
    picked_run radixTree
  have hfirst : Run (SysStep (2 ^ 20) volumeAllocator radixTree) u
      ([] ++ (u, .wake (some y)) :: (mid ++ [(w, .wake (some x))])) s := run
  obtain ⟨-, u', hstep, -⟩ := hfirst.split
  obtain ⟨-, hpicked⟩ := picked_least_recent volumeAllocator_tablesApart mapping_freshState
    freshState_region run₀
    (fun p hp => hplain p (List.mem_append_left _ hp)) hstep (x := y) rfl
  obtain ⟨pre, p, post, rfl, hp, hpost⟩ := hpicked x (by rw [hlisted]; simp) hxy
  exact ⟨pre, post, p, u, u', x, y, run₀, hstep, hlisted, hxy, hp, hpost⟩

/-! ### Waiting -/

/-- How often the collector has taken an inode. -/
def picks (steps : List (System × SysCall)) : Nat := (steps.filterMap fun p => p.2.picked).length

theorem touched_of_picked (hpicked : c.picked = some x) : c.touched = some x := by
  cases c with
  | wake => exact hpicked
  | _ => cases hpicked

/-- As long as an inode is not touched, every inode that the collector takes leaves one less behind
it. -/
theorem behind_run (hA : TablesApart A) (hb : Mapping b) (h : u.Sound b A)
    (run : Run (SysStep b A R) u steps s) (hplain : ∀ p ∈ steps, ¬ p.2.Reinserts)
    (hx : x ∈ u.listed) (hquiet : ∀ p ∈ steps, p.2.touched ≠ some x) :
    x ∈ s.listed ∧ picks steps + behind x s.listed ≤ behind x u.listed := by
  induction run with
  | nil => exact ⟨hx, by simp [picks]⟩
  | @snoc steps s s' c run hstep ih =>
    have hplain' : ∀ p ∈ steps, ¬ p.2.Reinserts := fun p hp => hplain p (List.mem_append_left _ hp)
    obtain ⟨hmem, hle⟩ := ih hplain' fun p hp => hquiet p (List.mem_append_left _ hp)
    have hs := sound_of_run hA hb h run hplain'
    have hlisted := hs.listed_step hb hstep (hplain (s, c) (by simp))
    have hne : c.touched ≠ some x := hquiet (s, c) (by simp)
    have hpicks : picks (steps ++ [(s, c)]) = picks steps + c.picked.toList.length := by
      rw [picks, List.filterMap_append, List.length_append, picks]
      cases hc : c.picked <;> simp [hc]
    rw [hlisted, hpicks]
    cases htouched : c.touched with
    | none =>
      have hnone : c.picked = none := by
        cases hpicked : c.picked with
        | none => rfl
        | some y => rw [touched_of_picked hpicked] at htouched; cases htouched
      rw [hnone]
      exact ⟨hmem, hle⟩
    | some z =>
      have hzx : z ≠ x := by
        rintro rfl
        exact hne htouched
      refine ⟨mem_toFront.2 (.inr hmem), ?_⟩
      rw [Option.elim_some]
      cases hpicked : c.picked with
      | none =>
        have := behind_toFront_le (l := s.listed) hzx
        rw [Option.toList_none, List.length_nil]
        omega
      | some y =>
        obtain rfl : z = y := Option.some.inj (htouched.symm.trans (touched_of_picked hpicked))
        have := behind_toFront_getLast (hs.recent hb).nodup hmem
          (hs.picked_last hb hstep hpicked) hzx
        rw [Option.toList_some, List.length_singleton]
        omega

/-- Nobody waits forever: when the collector has taken as many inodes as there were on the list, it
has taken each of them, but for those that were touched in the meantime. -/
theorem taken_or_touched (hA : TablesApart A) (hb : Mapping b) (h : FreshRegion b A s₀)
    {before : List (System × SysCall)} (run₀ : Run (SysStep b A R) (start s₀) before u)
    (run : Run (SysStep b A R) u steps s) (hplain : ∀ p ∈ before ++ steps, ¬ p.2.Reinserts)
    (hx : x ∈ u.listed) (hpicks : u.listed.length ≤ picks steps) : ∃ p ∈ steps,
    p.2.touched = some x := by
  have hu := sound_of_run hA hb (sound_start h) run₀ fun p hp =>
    hplain p (List.mem_append_left _ hp)
  by_contra hnone
  have hquiet : ∀ p ∈ steps, p.2.touched ≠ some x := fun p hp hc => hnone ⟨p, hp, hc⟩
  obtain ⟨-, hle⟩ := behind_run hA hb hu run (fun p hp => hplain p (List.mem_append_right _ hp)) hx
    hquiet
  have := behind_lt hx
  omega

/-- In the sample two inodes are on the list, and the collector takes two. -/
theorem taken_or_touched_sample : ∃ (before steps : List (System × SysCall)) (u s :
      System) (x y : Nat),
    Run (SysStep (2 ^ 20) volumeAllocator radixTree) (start freshState) before u ∧
      Run (SysStep (2 ^ 20) volumeAllocator radixTree) u steps s ∧ u.listed = [x, y] ∧ x ≠ y ∧
      picks steps = 2 ∧ ∃ p ∈ steps, p.2.touched = some x := by
  obtain ⟨before, mid, u, w, s, x, y, a, run₀, run, -, hmid, hlisted, hxy, hplain⟩ :=
    picked_run radixTree
  have htwo : picks ((u, .wake (some y)) :: (mid ++ [(w, .wake (some x))])) = 2 := by
    rw [picks, filterMap_label SysCall.picked, List.map_cons, List.map_append, hmid]
    rfl
  refine ⟨before, _, u, s, x, y, run₀, run, hlisted, hxy, htwo, ?_⟩
  exact taken_or_touched volumeAllocator_tablesApart mapping_freshState freshState_region
    run₀ run hplain
    (by rw [hlisted]; simp) (by rw [hlisted, htwo]; simp)

end Order

/-! ## Between two collections -/

section Between

/-- While the collector has an inode it takes no other, and the counters stay zero until a call is
counted. -/
theorem since_picked (hcollecting : u.collecting = some x) (hcounters : u.counters = ⟨0, 0⟩)
    (run : Run (SysStep b A R) u steps s) :
    (s.collecting = some x ∨ ∃ p ∈ steps, p.2 = .collect x) ∧
      (s.counters = ⟨0, 0⟩ ∨ ∃ p ∈ steps, p.2.Counted) := by
  induction run with
  | nil => exact ⟨.inl hcollecting, .inl hcounters⟩
  | @snoc steps s s' c run hstep ih =>
    obtain ⟨hcoll, hcount⟩ := ih
    have hlater (P : SysCall → Prop) (hp : ∃ p ∈ steps, P p.2) :
        ∃ p ∈ steps ++ [(s, c)], P p.2 := by
      obtain ⟨p, hp, hP⟩ := hp
      exact ⟨p, List.mem_append_left _ hp, hP⟩
    have hlast (P : SysCall → Prop) (hP : P c) : ∃ p ∈ steps ++ [(s, c)], P p.2 :=
      ⟨(s, c), by simp, hP⟩
    constructor
    · rcases hcoll with hcoll | hdone
      · cases hstep with
        | collect hx hgc =>
          obtain rfl := Option.some.inj (hx.symm.trans hcoll)
          exact .inr (hlast (· = .collect _) rfl)
        | wake hidle => rw [hidle] at hcoll; cases hcoll
        | enter hl hgiven =>
          refine .inl ?_
          rw [enter]
          split_ifs
          · exact hcoll
          · exact hcoll
        | alloc | create | run | lseek | invalidate => exact .inl hcoll
      · exact .inr (hlater (· = .collect x) hdone)
    · rcases hcount with hcount | hdone
      · cases hstep with
        | @enter lookup e l hl hgiven =>
          by_cases hnull : lookup = offsetNull
          · refine .inl ?_
            rw [enter, if_pos hnull]
            exact hcount
          · exact .inr (hlast SysCall.Counted hnull)
        | wake hidle =>
          refine .inl ?_
          rcases s.woken_cases b with ⟨hw, -⟩ | ⟨hw, -⟩
          · rw [hw]
            exact hcount
          · exact congrArg counters hw
        | alloc | create | run | lseek | invalidate | collect => exact .inl hcount
      · exact .inr (hlater SysCall.Counted hdone)

/-- Between two inodes that the collector takes it has collected the first, and at least one read or
write has found its file. -/
theorem between_picks {s₀ : System} {mid pre post : List (System × SysCall)} {w : System}
    {d : SysCall} (run : Run (SysStep b A R) s₀ (pre ++ (u, c) :: (mid ++ (w, d) :: post)) s)
    (hc : c.picked = some x) (hd : d.picked = some y) : (∃ p ∈ mid, p.2 = .collect x) ∧ ∃ p ∈ mid,
    p.2.Counted := by
  obtain ⟨-, u', hfirst, hrest⟩ := run.split
  obtain ⟨hmid, w', hsecond, -⟩ := hrest.split
  have hpicked : u'.collecting = some x ∧ u'.counters = ⟨0, 0⟩ := by
    cases hfirst with
    | wake hidle =>
      change (u.woken b).collecting = some x at hc
      refine ⟨hc, ?_⟩
      rcases u.woken_cases b with ⟨hw, -⟩ | ⟨hw, -⟩
      · rw [hw, hidle] at hc
        cases hc
      · exact congrArg counters hw
    | _ => cases hc
  obtain ⟨hcoll, hcount⟩ := since_picked hpicked.1 hpicked.2 hmid
  cases hsecond with
  | wake hidle =>
    change (w.woken b).collecting = some y at hd
    refine ⟨hcoll.resolve_left (by rw [hidle]; simp), hcount.resolve_left fun hzero => ?_⟩
    rcases w.woken_cases b with ⟨hw, -⟩ | ⟨-, hruns⟩
    · rw [hw, hidle] at hd
      cases hd
    · rw [gcTaskThread_snd, hzero] at hruns
      simp [AccessCounters.limit, addU64] at hruns
  | _ => cases hd

/-- In the sample `y` is collected and read before the collector takes `x`. -/
theorem between_picks_sample : ∃ (pre mid : List (System × SysCall)) (u w s : System) (x y : Nat),
    Run (SysStep (2 ^ 20) volumeAllocator radixTree) (start freshState)
        (pre ++ (u, .wake (some y)) :: (mid ++ [(w, .wake (some x))])) s ∧ x ≠ y ∧
      (∃ p ∈ mid, p.2 = .collect y) ∧ ∃ p ∈ mid, p.2.Counted := by
  obtain ⟨before, mid, u, w, s, x, y, a, run₀, run, -, -, -, hxy, -⟩ := picked_run radixTree
  have hrun := run₀.append run
  exact ⟨before, mid, u, w, s, x, y, hrun, hxy, between_picks (x := y) (y := x) hrun rfl rfl⟩

end Between

end System

end Atfs
