import Mathlib.Data.List.Basic
import Mathlib.Data.List.Nodup
import Mathlib.Logic.Function.Iterate

/-!
# Singly linked chains

A chain is described by its link function alone, so the same laws serve any
record layout: `Segment next p l q` says that following `next` from `p` visits
exactly the nodes `l` and arrives at `q`. A null-terminated list is a segment
that arrives at the null value. Edits are `Function.update`s of the link, and
each law says which segments an edit keeps, cuts or joins.
-/

namespace LinkedChain

variable {α : Type*}

/-- Following `next` from `p` visits the nodes `l` in order and arrives at `q`. -/
def Segment (next : α → α) : α → List α → α → Prop
  | p, [], q => p = q
  | p, x :: xs, q => p = x ∧ Segment next (next x) xs q

variable {f g : α → α} {p q r x y : α} {l xs ys : List α}

@[simp] theorem segment_nil : Segment f p [] q ↔ p = q := Iff.rfl

@[simp] theorem segment_cons : Segment f p (x :: xs) q ↔ p = x ∧ Segment f (f x) xs q := Iff.rfl

theorem segment_append :
    Segment f p (xs ++ ys) r ↔ ∃ q, Segment f p xs q ∧ Segment f q ys r := by
  induction xs generalizing p with
  | nil => simp
  | cons x xs ih => simp only [List.cons_append, segment_cons, ih]; grind

theorem segment_snoc : Segment f p (xs ++ [x]) q ↔ Segment f p xs x ∧ f x = q := by
  rw [segment_append]
  simp only [segment_cons, segment_nil]
  grind

/-- Two segments meeting at a node form one. -/
theorem Segment.append (h : Segment f p xs q) (h' : Segment f q ys r) :
    Segment f p (xs ++ ys) r := segment_append.2 ⟨q, h, h'⟩

/-- A segment only reads the links of its own nodes. -/
theorem Segment.congr (h : Segment f p l q) (hfg : ∀ x ∈ l, f x = g x) : Segment g p l q := by
  induction l generalizing p with
  | nil => exact h
  | cons x xs ih =>
    refine ⟨h.1, ?_⟩
    rw [← hfg x (by simp)]
    exact ih h.2 fun y hy => hfg y (by simp [hy])

theorem Segment.update [DecidableEq α] (h : Segment f p l q) (hx : x ∉ l) :
    Segment (Function.update f x y) p l q :=
  h.congr fun z hz => (Function.update_of_ne (by rintro rfl; exact hx hz) _ _).symm

/-- Redirecting the last link of a segment moves its end. -/
theorem Segment.relink_last [DecidableEq α] (h : Segment f p (xs ++ [x]) q) (hx : x ∉ xs) :
    Segment (Function.update f x r) p (xs ++ [x]) r :=
  segment_snoc.2 ⟨(segment_snoc.1 h).1.update hx, by simp⟩

/-- Take a node out by setting the link of the node before it. -/
theorem Segment.remove [DecidableEq α] (h : Segment f p (xs ++ [x] ++ y :: ys) q) (hxs : x ∉ xs)
    (hys : x ∉ ys) : Segment (Function.update f x (f y)) p (xs ++ [x] ++ ys) q := by
  obtain ⟨r, hleft, hright⟩ := segment_append.1 h
  exact (hleft.relink_last hxs).append ((segment_cons.1 hright).2.update hys)

/-- The start and the number of nodes determine a segment. -/
theorem Segment.unique (h : Segment f p xs q) (h' : Segment f p ys r)
    (hl : xs.length = ys.length) : xs = ys ∧ q = r := by
  induction xs generalizing p ys with
  | nil =>
    obtain rfl : ys = [] := List.length_eq_zero_iff.1 hl.symm
    exact ⟨rfl, h.symm.trans h'⟩
  | cons x xs ih =>
    obtain _ | ⟨y, ys⟩ := ys
    · simp at hl
    · obtain ⟨rfl, hs⟩ := h
      obtain ⟨rfl, hs'⟩ := h'
      obtain ⟨rfl, rfl⟩ := ih hs hs' (by simpa using hl)
      exact ⟨rfl, rfl⟩

/-- A chain ending in a value that is not a node of it is determined by its start. -/
theorem Segment.unique_of_end (h : Segment f p xs q) (h' : Segment f p ys q)
    (hx : q ∉ xs) (hy : q ∉ ys) : xs = ys := by
  induction xs generalizing p ys with
  | nil =>
    obtain _ | ⟨y, ys⟩ := ys
    · rfl
    · exact absurd (h.symm.trans h'.1) (by simp at hy; exact hy.1)
  | cons x xs ih =>
    obtain _ | ⟨y, ys⟩ := ys
    · exact absurd (h'.symm.trans h.1) (by simp at hx; exact hx.1)
    · obtain ⟨rfl, hs⟩ := h
      obtain ⟨rfl, hs'⟩ := h'
      rw [ih hs hs' (by simp at hx; exact hx.2) (by simp at hy; exact hy.2)]

/-- A chain that ends outside its nodes visits none of them twice. -/
theorem Segment.nodup (h : Segment f p l q) (hq : q ∉ l) : l.Nodup := by
  induction l generalizing p with
  | nil => exact List.nodup_nil
  | cons x xs ih =>
    have hrest : q ∉ xs := fun hc => hq (List.mem_cons_of_mem _ hc)
    refine List.nodup_cons.2 ⟨fun hx => ?_, ih h.2 hrest⟩
    obtain ⟨as, bs, rfl⟩ := List.append_of_mem hx
    obtain ⟨r, -, hsuffix⟩ := segment_append.1 h.2
    obtain rfl : r = x := hsuffix.1
    obtain rfl : p = r := h.1
    -- two chains of different lengths from one node
    have heq := h.unique_of_end hsuffix hq fun hc => hrest (by simp at hc ⊢; exact .inr hc)
    have := congrArg List.length heq
    simp at this
    omega

/-- Iterating the link reaches the nodes one after the other. -/
theorem Segment.iterate (h : Segment f p l q) {i : Nat} (hi : i < l.length) :
    f^[i] p = l[i] := by
  induction l generalizing p i with
  | nil => simp at hi
  | cons x xs ih =>
    obtain ⟨rfl, hs⟩ := h
    cases i with
    | zero => rfl
    | succ i => simpa using ih hs (by simpa using hi)

theorem Segment.iterate_length (h : Segment f p l q) : f^[l.length] p = q := by
  induction l generalizing p with
  | nil => exact h
  | cons x xs ih =>
    obtain ⟨rfl, hs⟩ := h
    simpa using ih hs

/-- The nodes and the end determine the start. -/
theorem Segment.start_eq (h : Segment f p l q) (h' : Segment f r l q) : p = r := by
  cases l with
  | nil => exact (segment_nil.1 h).trans (segment_nil.1 h').symm
  | cons x xs => exact h.1.trans h'.1.symm

/-- Every node but the last is linked to the one behind it. -/
theorem Segment.link (h : Segment f p l q) {i : Nat} (hi : i + 1 < l.length) :
    f l[i] = l[i + 1] := by
  rw [← h.iterate hi, Function.iterate_succ_apply', h.iterate]

/-- The last node is linked to the end. -/
theorem Segment.link_last (h : Segment f p l q) {i : Nat} (hi : i < l.length)
    (hlast : i + 1 = l.length) : f l[i] = q := by
  have last := h.iterate_length
  rwa [← hlast, Function.iterate_succ_apply', h.iterate hi] at last

/-- Every node is linked to another one or to the end. -/
theorem Segment.link_mem (h : Segment f p l q) (hx : x ∈ l) : f x ∈ l ∨ f x = q := by
  obtain ⟨i, hi, rfl⟩ := List.getElem_of_mem hx
  by_cases hlast : i + 1 < l.length
  · rw [h.link hlast]
    exact .inl (List.getElem_mem _)
  · exact .inr (h.link_last hi (by omega))

theorem Segment.head_eq (h : Segment f p (x :: xs) q) : p = x := h.1

/-- Cut a segment after any number of its nodes. -/
theorem Segment.split (h : Segment f p l q) (n : Nat) :
    ∃ r, Segment f p (l.take n) r ∧ Segment f r (l.drop n) q :=
  segment_append.1 (by rwa [List.take_append_drop])

end LinkedChain
