import Atfs.System.Runs

/-!
# What users get

Over every run the inodes handed out are those being created and those on the list, none of them
twice and none of them on a table. Each is an empty file when it is handed out, and from then on
answers the calls on it as if there was no other file, no collector and no list.
-/

namespace Atfs

open ByteMemory LinkedChain LinkedRing LabelledRun

namespace System

variable {b : Nat} {A : PageAllocator} {R : RadixTree} {s₀ : State} {s s' : System} {c : SysCall}
  {steps : List (System × SysCall)} {x : Nat}

section Inodes

/-- A section hands out the inode it allocates, and no other. -/
theorem Sound.handed_step (h : s.Sound b A) (hstep : SysStep b A R s c s') (hc : ¬ c.Reinserts) :
    (s'.creating ++ s'.listed).Perm (c.allocated.toList ++ (s.creating ++ s.listed)) := by
  obtain ⟨F, logs, tables, homes, files, h⟩ := h
  cases hstep with
  | alloc hclean halloc => exact .refl _
  | create hcreates hgiven => exact Mounted.handed_perm hc hgiven (h.fits hgiven)
  | enter hl hgiven =>
    have hperm := Mounted.handed_perm (Call.listCall_spec hl).1 hgiven (h.fits hgiven)
    rw [enter]
    split_ifs
    · exact hperm
    · exact hperm
  | wake hidle =>
    change ((s.woken b).creating ++ (s.woken b).listed).Perm (s.creating ++ s.listed)
    rcases s.woken_cases b with ⟨hw, -⟩ | ⟨hw, -⟩
    · rw [hw]
    · rw [hw, take_creating, take_listed]
      exact Mounted.handed_perm (c := .startGcTask) id trivial trivial
  | run | lseek | invalidate | collect => exact .refl _

/-- No inode is lost and none is in two places: the inodes handed out in a run are those that are
being created and those on the list, and these and the inodes on the tables are different and lie
apart. -/
theorem inodes_once (hA : TablesApart A) (hb : Mapping b) (h : FreshRegion b A s₀)
    (run : Run (SysStep b A R) (start s₀) steps s) (hplain : ∀ p ∈ steps, ¬ p.2.Reinserts) :
    (steps.filterMap fun p => p.2.allocated).Perm (s.creating ++ s.listed) ∧
      ∃ tables, (∀ i < gCpuNums, TableHolds s.state.mem i (tables i)) ∧
        (allInodes tables ++ (s.creating ++ s.listed)).Nodup ∧
        ∀ x ∈ allInodes tables ++ (s.creating ++ s.listed),
        ∀ y ∈ allInodes tables ++ (s.creating ++ s.listed),
          x ≠ y → x + sizeofAtfsInode ≤ y ∨ y + sizeofAtfsInode ≤ x := by
  constructor
  · induction run with
    | nil => exact .refl _
    | @snoc steps s s' c run hstep ih =>
      have hplain' : ∀ p ∈ steps, ¬ p.2.Reinserts :=
        fun p hp => hplain p (List.mem_append_left _ hp)
      have hs := sound_of_run hA hb (sound_start h) run hplain'
      have hperm := hs.handed_step hstep (hplain (s, c) (by simp))
      have hlast : [(s, c)].filterMap (fun p => p.2.allocated) = c.allocated.toList := by
        cases hc : c.allocated <;> simp [hc]
      rw [List.filterMap_append, hlast]
      exact (List.perm_append_comm.trans ((ih hplain').append_left _)).trans hperm.symm
  · obtain ⟨F, logs, tables, homes, files, hs⟩ := sound_of_run hA hb (sound_start h) run hplain
    refine ⟨tables, hs.tabled.holds, hs.tabled.all.nodup_iff.2 hs.tabled.nodup,
      fun x hx y hy hxy => ?_⟩
    exact hs.filed.sound.apart x (hs.tabled.all.mem_iff.1 hx) y (hs.tabled.all.mem_iff.1 hy) hxy

/-- In the sample two inodes are handed out, which lie apart. -/
theorem inodes_once_sample : ∃ (steps : List (System × SysCall)) (s : System) (x y : Nat),
    Run (SysStep (2 ^ 20) volumeAllocator radixTree) (start freshState) steps s ∧
      (steps.filterMap fun p => p.2.allocated) = [y, x] ∧ s.listed = [x, y] ∧ y ≠ x ∧
      (y + sizeofAtfsInode ≤ x ∨ x + sizeofAtfsInode ≤ y) := by
  obtain ⟨steps, s, x, y, run, hsteps, h⟩ := created_run radixTree
  obtain ⟨hperm, tables, -, hnodup, hapart⟩ :=
    inodes_once volumeAllocator_tablesApart mapping_freshState
    freshState_region run
      (plain_of_map (by rw [hsteps]; simp [SysCall.Reinserts, ListCall.Reinserts]))
  have hmap : (steps.filterMap fun p => p.2.allocated) = [y, x] := by
    rw [filterMap_label SysCall.allocated, hsteps]
    rfl
  have hhanded : (s.creating ++ s.listed).Nodup := (List.nodup_append'.1 hnodup).2.1
  have hxy : y ≠ x := by
    rw [← hperm.nodup_iff, hmap] at hhanded
    simpa using hhanded
  have hmem {z : Nat} (hz : z ∈ s.listed) : z ∈ allInodes tables ++ (s.creating ++ s.listed) :=
    List.mem_append_right _ (List.mem_append_right _ hz)
  refine ⟨steps, s, x, y, run, hmap, h.listed, hxy, ?_⟩
  exact hapart y (hmem (by rw [h.listed]; simp)) x (hmem (by rw [h.listed]; simp)) hxy

end Inodes

/-! ## The files -/

section Files

/-- The program is a family of files, each of its own. -/
theorem views_run (hA : TablesApart A) (hb : Mapping b) (h : FreshRegion b A s₀)
    (run : Run (SysStep b A R) (start s₀) steps s) (hplain : ∀ p ∈ steps, ¬ p.2.Reinserts) :
    Run (FamilyStep .empty PagedFile.Step) (fun _ => none)
      (steps.map fun p => (p.1.views, p.2.event)) s.views := by
  induction run with
  | nil =>
    have hnone : (start s₀).views = fun _ => none := funext fun _ => if_neg List.not_mem_nil
    rw [hnone]
    exact .nil
  | @snoc steps s s' c run hstep ih =>
    have hplain' : ∀ p ∈ steps, ¬ p.2.Reinserts := fun p hp => hplain p (List.mem_append_left _ hp)
    have hs := sound_of_run hA hb (sound_start h) run hplain'
    rw [List.map_append, List.map_singleton]
    exact (ih hplain').snoc (hs.step hA hb hstep (hplain (s, c) (by simp))).2

end Files

end System

end Atfs
