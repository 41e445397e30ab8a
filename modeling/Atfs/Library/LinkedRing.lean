import Atfs.Library.LinkedChain

/-!
# Circular doubly linked lists

A ring is described by its two link functions: `Circle s h l` says that following `next` from the
head `h` visits exactly the nodes `l` and returns to `h`, and that following `prev` visits them
the other way round. The edits are those of the list of the Linux kernel, written as updates
of the links.
-/

namespace LinkedRing

open LinkedChain

/-- The two link functions. -/
structure Links (α : Type*) where
  next : α → α
  prev : α → α

variable {α : Type*}

/-- Following the links from `h` visits `l` and returns to `h`, both ways. -/
structure Circle (s : Links α) (h : α) (l : List α) : Prop where
  forward : Segment s.next (s.next h) l h
  backward : Segment s.prev (s.prev h) l.reverse h
  nodup : (h :: l).Nodup

namespace Links

/-- The links read the other way round. -/
def flip (s : Links α) : Links α := ⟨s.prev, s.next⟩

/-- The links agree at the nodes `l`. -/
def Agree (l : List α) (s t : Links α) : Prop := ∀ x ∈ l, s.next x = t.next x ∧ s.prev x = t.prev x

variable [DecidableEq α]

def setNext (s : Links α) (x y : α) : Links α := { s with next := Function.update s.next x y }

def setPrev (s : Links α) (x y : α) : Links α := { s with prev := Function.update s.prev x y }

/-- Put `x` between `p` and `n`. -/
def insert (s : Links α) (x p n : α) : Links α :=
  (((s.setPrev n x).setNext x n).setPrev x p).setNext p x

/-- Link `p` and `n` to each other. -/
def join (s : Links α) (p n : α) : Links α := (s.setPrev n p).setNext p n

/-- Put `x` behind `h`. -/
def add (s : Links α) (x h : α) : Links α := s.insert x h (s.next h)

/-- Take `x` out and put it behind `h`. -/
def move (s : Links α) (x h : α) : Links α := (s.join (s.prev x) (s.next x)).add x h

section Agree

variable {l : List α} {s t u : Links α}

omit [DecidableEq α] in
theorem Agree.trans (h : Agree l s t) (h' : Agree l t u) : Agree l s u := fun x hx =>
  ⟨(h x hx).1.trans (h' x hx).1, (h x hx).2.trans (h' x hx).2⟩

omit [DecidableEq α] in
theorem Agree.symm (h : Agree l s t) : Agree l t s := fun x hx => ⟨(h x hx).1.symm, (h x hx).2.symm⟩

omit [DecidableEq α] in
theorem Agree.mono {l' : List α} (h : Agree l s t) (hl : l' ⊆ l) : Agree l' s t :=
  fun x hx => h x (hl hx)

theorem Agree.setNext (h : Agree l s t) (x y : α) : Agree l (s.setNext x y) (t.setNext x y) := by
  refine fun z hz => ⟨?_, (h z hz).2⟩
  by_cases hzx : z = x
  · simp [Links.setNext, hzx]
  · simpa [Links.setNext, hzx] using (h z hz).1

theorem Agree.setPrev (h : Agree l s t) (x y : α) : Agree l (s.setPrev x y) (t.setPrev x y) := by
  refine fun z hz => ⟨(h z hz).1, ?_⟩
  by_cases hzx : z = x
  · simp [Links.setPrev, hzx]
  · simpa [Links.setPrev, hzx] using (h z hz).2

theorem Agree.insert (h : Agree l s t) (x p n : α) : Agree l (s.insert x p n) (t.insert x p n) :=
  (((h.setPrev n x).setNext x n).setPrev x p).setNext p x

theorem Agree.join (h : Agree l s t) (p n : α) : Agree l (s.join p n) (t.join p n) :=
  (h.setPrev n p).setNext p n

end Agree

theorem add_next (s : Links α) (x h : α) :
    (s.add x h).next = Function.update (Function.update s.next x (s.next h)) h x := rfl

theorem add_prev (s : Links α) (x h : α) :
    (s.add x h).prev = Function.update (Function.update s.prev (s.next h) x) x h := rfl

theorem join_next (s : Links α) (p n : α) : (s.join p n).next = Function.update s.next p n := rfl

end Links

section Ring

variable {s t : Links α} {h x y : α} {l xs ys : List α}

theorem Circle.congr (hr : Circle s h l) (hst : Links.Agree (h :: l) s t) : Circle t h l where
  forward := by
    rw [← (hst h (by simp)).1]
    exact hr.forward.congr fun x hx => (hst x (by simp [hx])).1
  backward := by
    rw [← (hst h (by simp)).2]
    exact hr.backward.congr fun x hx => (hst x (by simp at hx; simp [hx])).2
  nodup := hr.nodup

/-- The nodes of a ring are determined by its links. -/
theorem Circle.unique (hr : Circle s h xs) (hr' : Circle s h ys) : xs = ys :=
  hr.forward.unique_of_end hr'.forward (List.nodup_cons.1 hr.nodup).1
    (List.nodup_cons.1 hr'.nodup).1

theorem circle_nil : Circle s h [] ↔ s.next h = h ∧ s.prev h = h :=
  ⟨fun hr => ⟨hr.forward, hr.backward⟩, fun ⟨hn, hp⟩ => ⟨hn, hp, List.nodup_singleton h⟩⟩

/-- A ring is empty if its head is linked to itself. -/
theorem Circle.next_eq_head (hr : Circle s h l) : s.next h = h ↔ l = [] := by
  cases l with
  | nil => exact ⟨fun _ => rfl, fun _ => hr.forward⟩
  | cons x xs =>
    have hx : s.next h = x := hr.forward.head_eq
    have hne : h ≠ x := fun hc => (List.nodup_cons.1 hr.nodup).1 (hc ▸ List.mem_cons_self)
    constructor
    · intro hc
      exact absurd (hc.symm.trans hx) hne
    · intro hc
      exact absurd hc (List.cons_ne_nil _ _)

/-- The node before the head is the last one. -/
theorem Circle.prev_head (hr : Circle s h (xs ++ [x])) : s.prev h = x := by
  have hback := hr.backward
  rw [List.reverse_append] at hback
  exact hback.head_eq

theorem Circle.next_mem (hr : Circle s h l) : s.next h ∈ h :: l := by
  cases l with
  | nil =>
    rw [(circle_nil.1 hr).1]
    exact List.mem_cons_self
  | cons x xs =>
    have hx : s.next h = x := hr.forward.head_eq
    rw [hx]
    simp

/-- The neighbours of a node. -/
theorem Circle.neighbours (hr : Circle s h (xs ++ x :: ys)) :
    s.prev x = xs.getLastD h ∧ s.next x = ys.headD h := by
  constructor
  · have hback := hr.backward
    rw [List.reverse_append, List.reverse_cons, List.append_assoc] at hback
    obtain ⟨q, -, hq⟩ := segment_append.1 hback
    obtain ⟨rfl, hq⟩ := hq
    rcases xs.eq_nil_or_concat with rfl | ⟨zs, z, rfl⟩
    · simpa using hq
    · rw [List.concat_eq_append, List.reverse_append] at hq
      simpa using hq.head_eq
  · obtain ⟨q, -, hq⟩ := segment_append.1 hr.forward
    obtain ⟨rfl, hq⟩ := hq
    cases ys with
    | nil => exact hq
    | cons z zs => exact hq.head_eq

/-- Read the other way round, a ring visits its nodes in the opposite order. -/
theorem Circle.flip (hr : Circle s h l) : Circle s.flip h l.reverse where
  forward := hr.backward
  backward := by
    rw [List.reverse_reverse]
    exact hr.forward
  nodup := by
    rw [List.nodup_cons, List.mem_reverse, List.nodup_reverse, ← List.nodup_cons]
    exact hr.nodup

/-- From the nodes before `x` the links lead to nodes up to `x`. -/
theorem next_mem_of_segment {f : α → α} {p q : α} (hs : Segment f p (xs ++ x :: ys) q) :
    p ∈ xs ++ [x] ∧ ∀ z ∈ xs, f z ∈ xs ++ [x] := by
  induction xs generalizing p with
  | nil =>
    obtain ⟨rfl, -⟩ := hs
    simp
  | cons y xs ih =>
    obtain ⟨rfl, hs⟩ := hs
    obtain ⟨hp, hxs⟩ := ih hs
    refine ⟨by simp, fun z hz => ?_⟩
    rcases List.mem_cons.1 hz with rfl | hz
    · exact List.mem_cons_of_mem _ hp
    · exact List.mem_cons_of_mem _ (hxs z hz)

end Ring

/-! ## Edits -/

section Edits

variable [DecidableEq α] {s t : Links α} {h x y : α} {l l' xs ys : List α}

/-- A node that is not in the ring is put in front. -/
theorem Circle.add (hr : Circle s h l) (hx : x ∉ h :: l) : Circle (s.add x h) h (x :: l) := by
  obtain ⟨hxh, hxl⟩ : x ≠ h ∧ x ∉ l := by simpa using hx
  obtain ⟨hhl, hl⟩ := List.nodup_cons.1 hr.nodup
  refine ⟨?_, ?_, ?_⟩
  · rw [Links.add_next, Function.update_self]
    refine ⟨rfl, ?_⟩
    rw [Function.update_of_ne hxh, Function.update_self]
    exact (hr.forward.update hxl).update hhl
  · rw [Links.add_prev, List.reverse_cons, Function.update_of_ne (Ne.symm hxh)]
    refine Segment.append (q := x) (Segment.update ?_ (by simpa using hxl))
      ⟨rfl, Function.update_self ..⟩
    cases l with
    | nil =>
      rw [(circle_nil.1 hr).1, Function.update_self]
      rfl
    | cons a as =>
      have ha : s.next h = a := hr.forward.head_eq
      have hha : h ≠ a := fun hc => hhl (hc ▸ List.mem_cons_self)
      have hback := hr.backward
      rw [List.reverse_cons] at hback ⊢
      rw [ha, Function.update_of_ne hha]
      exact hback.relink_last (by simpa using (List.nodup_cons.1 hl).1)
  · refine List.nodup_cons.2 ⟨fun hc => ?_, List.nodup_cons.2 ⟨hxl, hl⟩⟩
    exact (List.mem_cons.1 hc).elim (Ne.symm hxh) hhl

/-- Forwards, the neighbours of a node are joined over it. -/
theorem Circle.join_forward (hr : Circle s h (xs ++ x :: ys)) :
    Segment (s.join (s.prev x) (s.next x)).next ((s.join (s.prev x) (s.next x)).next h)
      (xs ++ ys) h := by
  rw [Links.join_next]
  have hnd := hr.nodup
  have hprev := hr.neighbours.1
  obtain ⟨q, hxs, rfl, hys⟩ := segment_append.1 hr.forward
  rcases xs.eq_nil_or_concat with rfl | ⟨zs, z, rfl⟩
  · rw [List.nil_append, hprev, List.getLastD_nil, Function.update_self]
    exact hys.update (by simp at hnd; grind)
  · rw [List.concat_eq_append] at *
    rw [List.getLastD_concat] at hprev
    rw [hprev, Function.update_of_ne (by simp at hnd; grind)]
    exact (hxs.relink_last (by simp at hnd; grind)).append (hys.update (by simp at hnd; grind))

/-- A node is taken out of the ring. -/
theorem Circle.join (hr : Circle s h (xs ++ x :: ys)) :
    Circle (s.join (s.prev x) (s.next x)) h (xs ++ ys) where
  forward := hr.join_forward
  backward := by
    have hflip := hr.flip
    rw [List.reverse_append, List.reverse_cons, List.append_assoc, List.singleton_append] at hflip
    rw [List.reverse_append]
    exact hflip.join_forward
  nodup := hr.nodup.sublist (by simp)

/-- A node of the ring is moved to the front. -/
theorem Circle.move (hr : Circle s h (xs ++ x :: ys)) :
    Circle (s.move x h) h (x :: (xs ++ ys)) := by
  refine hr.join.add ?_
  have hnd := hr.nodup
  simp at hnd ⊢
  grind

/-- Putting a node of the ring in front once more cuts the head off: the links that lead away
from it run in a cycle. -/
theorem Circle.not_circle_add (hr : Circle s h l) (hx : x ∈ l) (l' : List α) :
    ¬ Circle (s.add x h) h l' := by
  intro hr'
  obtain ⟨xs, ys, rfl⟩ := List.append_of_mem hx
  obtain ⟨hstart, hinner⟩ := next_mem_of_segment hr.forward
  have hh : h ∉ xs ++ [x] := by
    have := (List.nodup_cons.1 hr.nodup).1
    grind
  -- the cycle is closed under `next`
  have hclosed (z : α) (hz : z ∈ xs ++ [x]) : (s.add x h).next z ∈ xs ++ [x] := by
    rw [Links.add_next, Function.update_of_ne (by rintro rfl; exact hh hz)]
    by_cases hzx : z = x
    · rwa [hzx, Function.update_self]
    · rw [Function.update_of_ne hzx]
      exact hinner z (by grind)
  have hrun (n : Nat) : (s.add x h).next^[n] ((s.add x h).next h) ∈ xs ++ [x] := by
    induction n with
    | zero =>
      rw [Links.add_next, Function.update_self]
      simp
    | succ n ih =>
      rw [Function.iterate_succ_apply']
      exact hclosed _ ih
  have hback := hrun l'.length
  rw [hr'.forward.iterate_length] at hback
  exact hh hback

end Edits

end LinkedRing
