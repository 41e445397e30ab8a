import Mathlib.Data.List.Induction
import Mathlib.Data.List.Nodup

/-!
# Moving to the front

A list in which whatever is used moves to the front. It is in the order of the last uses, so that
its last element is the one that has not been used for longest. Whoever takes the last element and
moves it to the front comes to every element that waits.
-/

namespace MoveToFront

variable {α : Type*} [DecidableEq α]

/-- `x` is used: it comes first. -/
def toFront (l : List α) (x : α) : List α := x :: l.erase x

/-- The list after the `uses`, one after another. -/
def afterUses (l uses : List α) : List α := uses.foldl toFront l

/-- How many elements are behind `x`. -/
def behind (x : α) : List α → Nat
  | [] => 0
  | y :: l => if y = x then l.length else behind x l

section Order

variable {l uses : List α} {x y z : α}

theorem mem_toFront : y ∈ toFront l x ↔ y = x ∨ y ∈ l := by
  rw [toFront, List.mem_cons]
  by_cases h : y = x
  · simp [h]
  · simp [h, List.mem_erase_of_ne h]

theorem nodup_toFront (h : l.Nodup) : (toFront l x).Nodup :=
  List.nodup_cons.2 ⟨h.not_mem_erase, h.erase x⟩

theorem afterUses_concat : afterUses l (uses ++ [x]) = toFront (afterUses l uses) x := by
  rw [afterUses, List.foldl_append]
  rfl

theorem nodup_afterUses (h : l.Nodup) : (afterUses l uses).Nodup := by
  induction uses using List.reverseRecOn with
  | nil => exact h
  | append_singleton uses x ih =>
    rw [afterUses_concat]
    exact nodup_toFront ih

/-- The elements that are not used keep their order. -/
theorem sublist_of_toFront (hnd : l.Nodup) (h : [y, x].Sublist (toFront l z)) :
    x ≠ z ∧ (y = z ∨ [y, x].Sublist l) := by
  rw [toFront] at h
  cases h with
  | cons _ h =>
    refine ⟨?_, .inr (h.trans List.erase_sublist)⟩
    rintro rfl
    exact hnd.not_mem_erase (h.subset (by simp))
  | cons_cons _ h =>
    refine ⟨?_, .inl rfl⟩
    rintro rfl
    exact hnd.not_mem_erase (List.singleton_sublist.1 h)

/-- Of two elements the one in front has been used since the last use of the other. -/
theorem used_since (hnd : l.Nodup) (h : [y, x].Sublist (afterUses l uses)) :
    [y, x].Sublist l ∧ x ∉ uses ∨ ∃ pre post, uses = pre ++ y :: post ∧ x ∉ y :: post := by
  induction uses using List.reverseRecOn with
  | nil => exact .inl ⟨h, List.not_mem_nil⟩
  | append_singleton uses z ih =>
    rw [afterUses_concat] at h
    obtain ⟨hxz, rfl | h⟩ := sublist_of_toFront (nodup_afterUses hnd) h
    · exact .inr ⟨uses, [], rfl, by simpa using hxz⟩
    · rcases ih h with ⟨h, hx⟩ | ⟨pre, post, rfl, hx⟩
      · exact .inl ⟨h, by simpa using ⟨hx, hxz⟩⟩
      · refine .inr ⟨pre, post ++ [z], by simp, ?_⟩
        simp only [List.mem_cons, List.mem_append, not_or, List.not_mem_nil, or_false] at hx ⊢
        exact ⟨hx.1, hx.2, hxz⟩

omit [DecidableEq α] in
/-- All others are in front of the last. -/
theorem sublist_getLast (hlast : l.getLast? = some x) (hy : y ∈ l) (hyx : y ≠ x) :
    [y, x].Sublist l := by
  obtain ⟨xs, rfl⟩ := List.getLast?_eq_some_iff.1 hlast
  have hy : y ∈ xs := by simpa [hyx] using hy
  exact (List.singleton_sublist.2 hy).append (List.Sublist.refl [x])

end Order

/-! ## Waiting -/

section Wait

variable {l : List α} {x z : α}

@[simp] theorem behind_cons_self : behind x (x :: l) = l.length := if_pos rfl

theorem behind_cons_of_ne (h : z ≠ x) : behind x (z :: l) = behind x l := if_neg h

theorem behind_lt (hx : x ∈ l) : behind x l < l.length := by
  induction l with
  | nil => cases hx
  | cons y l ih =>
    rw [List.length_cons]
    by_cases h : y = x
    · subst h
      rw [behind_cons_self]
      omega
    · rw [behind_cons_of_ne h]
      have := ih ((List.mem_cons.1 hx).resolve_left (Ne.symm h))
      omega

/-- Erasing another element takes it from behind `x` or from the front. -/
theorem behind_erase_le (hz : z ≠ x) : behind x (l.erase z) ≤ behind x l := by
  induction l with
  | nil => simp
  | cons y l ih =>
    by_cases hyz : y = z
    · subst hyz
      exact Nat.le_of_eq (by rw [List.erase_cons_head, behind_cons_of_ne hz])
    · rw [List.erase_cons_tail (by simpa using hyz)]
      by_cases hyx : y = x
      · subst hyx
        rw [behind_cons_self, behind_cons_self]
        exact List.length_erase_le
      · rw [behind_cons_of_ne hyx, behind_cons_of_ne hyx]
        exact ih

/-- Using another element does not put more behind `x`. -/
theorem behind_toFront_le (hz : z ≠ x) : behind x (toFront l z) ≤ behind x l := by
  rw [toFront, behind_cons_of_ne hz]
  exact behind_erase_le hz

/-- Taking the last element leaves one less behind. -/
theorem behind_toFront_getLast (hnd : l.Nodup) (hx : x ∈ l) (hlast : l.getLast? = some z)
    (hz : z ≠ x) :
    behind x (toFront l z) + 1 = behind x l := by
  obtain ⟨xs, rfl⟩ := List.getLast?_eq_some_iff.1 hlast
  have hzs : z ∉ xs := fun hc => (List.nodup_append'.1 hnd).2.2 hc (by simp)
  have hxs : x ∈ xs := by simpa [Ne.symm hz] using hx
  rw [toFront, behind_cons_of_ne hz, List.erase_append_right _ hzs, List.erase_cons_head,
    List.append_nil]
  clear hx hnd hlast hzs
  induction xs with
  | nil => cases hxs
  | cons y xs ih =>
    rw [List.cons_append]
    by_cases hyx : y = x
    · subst hyx
      rw [behind_cons_self, behind_cons_self, List.length_append]
      rfl
    · rw [behind_cons_of_ne hyx, behind_cons_of_ne hyx]
      exact ih ((List.mem_cons.1 hxs).resolve_left (Ne.symm hyx))

end Wait

end MoveToFront
