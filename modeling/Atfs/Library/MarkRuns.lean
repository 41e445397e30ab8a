import Mathlib.Data.List.Range
import Mathlib.Data.List.Nodup
import Mathlib.Tactic.Common

/-!
# Runs of marks

Places `0, 1, …` carry marks that are set or clear. A scan that alternates between the clear and
the set marks below `n` meets the maximal runs of clear marks one after the other; `clearRuns` lists
them. There is at most one run more than there are set marks.
-/

namespace MarkRuns

/-- Where the marks stop to be `v`, seen from `j` and looking at `r` places at most. -/
def runEnd (b : Nat → Bool) (v : Bool) : Nat → Nat → Nat
  | 0, j => j
  | r + 1, j => if b j = v then runEnd b v r (j + 1) else j

/-- The places from `k` up to `j` form a maximal run of clear marks below `n`. -/
structure ClearRun (b : Nat → Bool) (n k j : Nat) : Prop where
  lt : k < j
  le : j ≤ n
  clear : ∀ i, k ≤ i → i < j → b i = false
  left : k = 0 ∨ b (k - 1) = true
  right : j = n ∨ b j = true

/-- A run of clear marks starts here. -/
def starts (b : Nat → Bool) (k : Nat) : Bool := !b k && (k == 0 || b (k - 1))

/-- The maximal runs of clear marks below `n` that start at `j` or behind it, in order. -/
def clearRuns (b : Nat → Bool) (n j : Nat) : List (Nat × Nat) :=
  ((List.range' j (n - j)).filter (starts b)).map fun k => (k, runEnd b false (n - k) k)

section RunEnd

variable {b : Nat → Bool} {v : Bool} {r j i : Nat}

theorem le_runEnd : j ≤ runEnd b v r j := by
  induction r generalizing j with
  | zero => exact le_rfl
  | succ r ih =>
    unfold runEnd
    split_ifs with h
    · exact (Nat.le_succ j).trans ih
    · exact le_rfl

theorem runEnd_le : runEnd b v r j ≤ j + r := by
  induction r generalizing j with
  | zero => exact le_rfl
  | succ r ih =>
    unfold runEnd
    split_ifs with h
    · have := ih (j := j + 1)
      omega
    · omega

theorem runEnd_mark (hi : j ≤ i) (hi' : i < runEnd b v r j) : b i = v := by
  induction r generalizing j with
  | zero =>
    unfold runEnd at hi'
    omega
  | succ r ih =>
    unfold runEnd at hi'
    split_ifs at hi' with h
    · rcases hi.eq_or_lt with rfl | hi
      · exact h
      · exact ih hi hi'
    · omega

theorem runEnd_stop (h : runEnd b v r j < j + r) : b (runEnd b v r j) ≠ v := by
  induction r generalizing j with
  | zero =>
    unfold runEnd at h
    omega
  | succ r ih =>
    unfold runEnd at h ⊢
    split_ifs at h ⊢ with hj
    · exact ih (by omega)
    · exact hj

/-- A run has a place as soon as its first mark is right. -/
theorem lt_runEnd (hr : 1 ≤ r) (hj : b j = v) : j < runEnd b v r j := by
  obtain ⟨r, rfl⟩ := Nat.exists_eq_succ_of_ne_zero (show r ≠ 0 by omega)
  unfold runEnd
  rw [if_pos hj]
  exact le_runEnd

theorem runEnd_of_ne (hj : b j ≠ v) : runEnd b v r j = j := by
  cases r with
  | zero => rfl
  | succ r => exact if_neg hj

/-- The marks decide where a run ends. -/
theorem runEnd_unique {e : Nat} (hle : j ≤ e) (hle' : e ≤ j + r)
    (hmark : ∀ i, j ≤ i → i < e → b i = v) (hstop : e = j + r ∨ b e ≠ v) : runEnd b v r j = e := by
  rcases Nat.lt_trichotomy (runEnd b v r j) e with h | h | h
  · exact absurd (hmark _ le_runEnd h) (runEnd_stop (by omega))
  · exact h
  · have := runEnd_le (b := b) (v := v) (r := r) (j := j)
    exact absurd (runEnd_mark hle h) (hstop.resolve_left (by omega))

end RunEnd

section ClearRuns

variable {b : Nat → Bool} {n j k e : Nat}

theorem starts_iff : starts b k = true ↔ b k = false ∧ (k = 0 ∨ b (k - 1) = true) := by
  simp [starts]

/-- The runs listed are the maximal ones. -/
theorem mem_clearRuns : (k, e) ∈ clearRuns b n j ↔ j ≤ k ∧ ClearRun b n k e := by
  simp only [clearRuns, List.mem_map, List.mem_filter, List.mem_range'_1, Prod.mk.injEq, starts_iff]
  constructor
  · rintro ⟨k, ⟨⟨hjk, hkn⟩, hclear, hleft⟩, rfl, rfl⟩
    have hle := runEnd_le (b := b) (v := false) (r := n - k) (j := k)
    refine ⟨hjk, lt_runEnd (by omega) hclear, by omega, fun i => runEnd_mark, hleft, ?_⟩
    rcases Nat.lt_or_ge (runEnd b false (n - k) k) n with h | h
    · exact .inr (by simpa using runEnd_stop (b := b) (v := false) (r := n - k) (j := k) (by omega))
    · exact .inl (by omega)
  · rintro ⟨hjk, hrun⟩
    have hlt := hrun.lt
    have hle := hrun.le
    refine ⟨k, ⟨⟨hjk, by omega⟩, hrun.clear k le_rfl hlt, hrun.left⟩, rfl, ?_⟩
    refine runEnd_unique hlt.le (by omega) hrun.clear ?_
    rcases hrun.right with rfl | hstop
    · exact .inl (by omega)
    · exact .inr (by simp [hstop])

/-- Every clear mark lies in one of the runs. -/
theorem exists_clearRun {i : Nat} (hi : i < n) (hclear : b i = false) :
    ∃ k e, ClearRun b n k e ∧ k ≤ i ∧ i < e := by
  induction i with
  | zero =>
    have hstart : (0, runEnd b false (n - 0) 0) ∈ clearRuns b n 0 :=
      List.mem_map.2 ⟨0, List.mem_filter.2 ⟨by simp [hi], starts_iff.2 ⟨hclear, .inl rfl⟩⟩, rfl⟩
    have hrun := (mem_clearRuns.1 hstart).2
    exact ⟨_, _, hrun, le_rfl, hrun.lt⟩
  | succ i ih =>
    cases hbefore : b i with
    | true =>
      have hstart : (i + 1, runEnd b false (n - (i + 1)) (i + 1)) ∈ clearRuns b n 0 :=
        List.mem_map.2
          ⟨i + 1, List.mem_filter.2 ⟨by simp [hi], starts_iff.2 ⟨hclear, .inr hbefore⟩⟩, rfl⟩
      have hrun := (mem_clearRuns.1 hstart).2
      exact ⟨_, _, hrun, le_rfl, hrun.lt⟩
    | false =>
      obtain ⟨k, e, hrun, hk, he⟩ := ih (by omega) hbefore
      refine ⟨k, e, hrun, by omega, lt_of_le_of_ne he ?_⟩
      -- the run of the mark before does not stop here
      rintro rfl
      rcases hrun.right with hend | hend
      · omega
      · rw [hclear] at hend
        cases hend

theorem nodup_clearRuns (b : Nat → Bool) (n j : Nat) : (clearRuns b n j).Nodup := by
  refine (List.Nodup.filter _ List.nodup_range').map ?_
  intro k k' h
  exact (Prod.mk.inj h).1

/-- Behind the end there is no run. -/
theorem clearRuns_self (b : Nat → Bool) (n : Nat) : clearRuns b n n = [] := by
  simp [clearRuns]

/-- The scan: a run of clear marks, if there is one, and a run of set marks behind it. -/
theorem clearRuns_step (hj : j ≤ n) (hleft : j = 0 ∨ b (j - 1) = true) {e e' : Nat}
    (he : e = runEnd b false (n - j) j) (he' : e' = runEnd b true (n - e) e) :
    clearRuns b n j = (if j < e then [(j, e)] else []) ++ clearRuns b n e' := by
  have hle : j ≤ e := he ▸ le_runEnd
  have hen : e ≤ n := by
    have := runEnd_le (b := b) (v := false) (r := n - j) (j := j)
    omega
  have hle' : e ≤ e' := he' ▸ le_runEnd
  have hen' : e' ≤ n := by
    have := runEnd_le (b := b) (v := true) (r := n - e) (j := e)
    omega
  have hclear (i : Nat) (h : j ≤ i) (h' : i < e) : b i = false := runEnd_mark h (he ▸ h')
  have hset (i : Nat) (h : e ≤ i) (h' : i < e') : b i = true := runEnd_mark h (he' ▸ h')
  have hsplit : List.range' j (n - j) = List.range' j (e' - j) ++ List.range' e' (n - e') := by
    rw [show n - j = e' - j + (n - e') by omega, ← List.range'_append_1,
      show j + (e' - j) = e' by omega]
  -- no run starts behind `j` and before `e'`
  have hfirst : (List.range' j (e' - j)).filter (starts b) = if j < e then [j] else [] := by
    by_cases hlt : j < e
    · rw [if_pos hlt, show e' - j = e' - (j + 1) + 1 by omega, List.range'_succ, List.filter_cons,
        if_pos (starts_iff.2 ⟨hclear j le_rfl hlt, hleft⟩)]
      refine congrArg _ (List.filter_eq_nil_iff.2 fun i hi => ?_)
      rw [List.mem_range'_1] at hi
      rw [starts_iff]
      rintro ⟨hi', hi''⟩
      rcases Nat.lt_or_ge i e with h | h
      · have := hclear (i - 1) (by omega) (by omega)
        grind
      · rw [hset i h (by omega)] at hi'
        cases hi'
    · rw [if_neg hlt]
      refine List.filter_eq_nil_iff.2 fun i hi => ?_
      rw [List.mem_range'_1] at hi
      rw [starts_iff, hset i (by omega) (by omega)]
      exact fun h => by cases h.1
  rw [clearRuns, hsplit, List.filter_append, List.map_append, hfirst, clearRuns]
  refine congrArg (· ++ _) ?_
  split_ifs with hlt
  · rw [List.map_singleton, ← he]
  · rfl

/-- Every start but the first stands behind a set mark. -/
theorem countP_starts_le (b : Nat → Bool) (n : Nat) : (List.range n).countP (starts b) ≤
    (List.range n).countP b + if n = 0 ∨ b (n - 1) = true then 0 else 1 := by
  induction n with
  | zero => simp
  | succ n ih =>
    rw [List.range_succ, List.countP_append, List.countP_append, List.countP_singleton,
      List.countP_singleton, Nat.add_sub_cancel]
    by_cases hn : b n = true
    · have hs : ¬ starts b n = true := by simp [starts, hn]
      rw [if_neg hs, if_pos hn, if_pos (.inr hn)]
      split_ifs at ih <;> omega
    · have hlast : ¬ (n + 1 = 0 ∨ b n = true) := fun h => h.elim (Nat.succ_ne_zero n) hn
      by_cases hs : starts b n = true
      · rw [if_pos hs, if_neg hn, if_neg hlast]
        rw [if_pos (starts_iff.1 hs).2] at ih
        omega
      · rw [if_neg hs, if_neg hn, if_neg hlast]
        split_ifs at ih <;> omega

theorem length_clearRuns_le (b : Nat → Bool) (n : Nat) :
    (clearRuns b n 0).length ≤ (List.range n).countP b + 1 := by
  have h := countP_starts_le b n
  rw [clearRuns, List.length_map, Nat.sub_zero, ← List.range_eq_range',
    ← List.countP_eq_length_filter]
  split_ifs at h <;> omega

end ClearRuns

end MarkRuns
