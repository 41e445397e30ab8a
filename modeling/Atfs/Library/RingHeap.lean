import Atfs.Library.LinkedRing
import Mathlib.Data.List.Chain

/-!
# Heaps of rings

A heap holds any number of circular doubly linked lists that share no node. What the edits of such a
list do to the whole heap is said in terms of the sequences the lists stand for: an insertion puts a
node into one sequence, a removal takes it out, a splice moves a whole sequence into another one,
and every other sequence stays as it is.

All edits are made of one step, `Links.join`, which links two nodes to each other, so a ring is read
as a chain of neighbours that starts and ends at its head.
-/

namespace LinkedRing

open LinkedChain

variable {α : Type*}

/-! ## Chains of neighbours -/

/-- Each node of `l` is linked to the next one, and that one back to it. -/
def Linked (s : Links α) (l : List α) : Prop := l.IsChain fun x y => s.next x = y ∧ s.prev y = x

section Linked

variable {s t : Links α} {f : α → α} {h x y p n : α} {l xs ys k : List α}

theorem segment_iff_isChain : Segment f (f x) l y ↔ (x :: (l ++ [y])).IsChain fun a b =>
    f a = b := by
  induction l generalizing x with
  | nil => rw [segment_nil, List.nil_append, List.isChain_pair]
  | cons z l ih => rw [segment_cons, List.cons_append, List.isChain_cons_cons, ih]

theorem linked_iff : Linked s l ↔ (l.IsChain fun a b => s.next a = b) ∧
    l.IsChain fun a b => s.prev b = a := by
  induction l with
  | nil => simp [Linked]
  | cons x l ih =>
    cases l with
    | nil => simp [Linked]
    | cons y l =>
      rw [Linked] at ih ⊢
      rw [List.isChain_cons_cons, List.isChain_cons_cons, List.isChain_cons_cons, ih]
      tauto

/-- A ring is a chain of neighbours from its head back to its head. -/
theorem circle_iff_linked : Circle s h l ↔ Linked s (h :: (l ++ [h])) ∧ (h :: l).Nodup := by
  have hback : Segment s.prev (s.prev h) l.reverse h ↔
      (h :: (l ++ [h])).IsChain fun a b => s.prev b = a := by
    rw [segment_iff_isChain, ← List.isChain_reverse]
    simp
  rw [linked_iff, ← segment_iff_isChain, ← hback]
  exact ⟨fun hr => ⟨⟨hr.forward, hr.backward⟩, hr.nodup⟩, fun hr => ⟨hr.1.1, hr.1.2, hr.2⟩⟩

/-- A chain reads the forward links of all but its last node and the backward links of all but its
first. -/
theorem Linked.congr (hl : Linked s l) (hn : ∀ z ∈ l.dropLast, t.next z = s.next z)
    (hp : ∀ z ∈ l.tail, t.prev z = s.prev z) : Linked t l := by
  induction l with
  | nil => exact List.IsChain.nil
  | cons x l ih =>
    cases l with
    | nil => exact List.IsChain.singleton x
    | cons y l =>
      rw [Linked, List.isChain_cons_cons] at hl ⊢
      refine ⟨⟨(hn x (by simp)).trans hl.1.1, (hp y (by simp)).trans hl.1.2⟩, ih hl.2 ?_ ?_⟩
      · exact fun z hz => hn z (by simp [hz])
      · exact fun z hz => hp z (List.mem_cons_of_mem _ hz)

theorem exists_snoc_getLastD (h : α) (xs : List α) : ∃ as, h :: xs = as ++ [xs.getLastD h] :=
  ⟨(h :: xs).dropLast, by
    rw [← List.getLast_eq_getLastD (List.cons_ne_nil h xs), List.dropLast_append_getLast]⟩

theorem exists_cons_headD (h : α) (ys : List α) : ∃ bs, ys ++ [h] = ys.headD h :: bs := by
  cases ys with
  | nil => exact ⟨[], rfl⟩
  | cons y ys => exact ⟨ys ++ [h], rfl⟩

/-- The two parts of a ring. -/
theorem Circle.linked_parts (hr : Circle s h (xs ++ ys)) : Linked s (h :: xs) ∧
    Linked s (ys ++ [h]) := by
  obtain ⟨hl, -⟩ := circle_iff_linked.1 hr
  rw [Linked, List.append_assoc, ← List.cons_append, List.isChain_append] at hl
  exact ⟨hl.1, hl.2.1⟩

end Linked

section Join

variable [DecidableEq α] {s t : Links α} {f : α → α} {h g x y p n : α} {l xs ys k : List α}

theorem Links.join_comm (s : Links α) {a b c d : α} (hac : a ≠ c) (hbd : b ≠ d) :
    (s.join a b).join c d = (s.join c d).join a b := by
  simp only [Links.join, Links.setNext, Links.setPrev]
  rw [Function.update_comm hac, Function.update_comm hbd]

/-- A chain that does not use the two links that are set. -/
theorem Linked.join_of_notMem (hl : Linked s l) (hp : p ∉ l.dropLast) (hn : n ∉ l.tail) :
    Linked (s.join p n) l := by
  refine hl.congr (fun z hz => Function.update_of_ne ?_ _ _) fun z hz =>
    Function.update_of_ne ?_ _ _
  · rintro rfl
    exact hp hz
  · rintro rfl
    exact hn hz

/-- Two chains become one when the end of the first is linked to the start of the second. -/
theorem Linked.join (hl : Linked s (xs ++ [p])) (hr : Linked s (n :: ys)) (hpl : p ∉ xs)
    (hpr : p ∉ (n :: ys).dropLast) (hnl : n ∉ (xs ++ [p]).tail) (hnr : n ∉ ys) :
    Linked (s.join p n) (xs ++ p :: n :: ys) := by
  have hl' : Linked (s.join p n) (xs ++ [p]) := hl.join_of_notMem (by simpa using hpl) hnl
  have hr' : Linked (s.join p n) (n :: ys) := hr.join_of_notMem hpr hnr
  rw [Linked, List.isChain_append_cons_cons]
  exact ⟨hl', ⟨Function.update_self .., Function.update_self ..⟩, hr'⟩

/-- Closing a ring: the end of what lies before and the start of what lies behind are linked. -/
theorem circle_join (hl : Linked s (h :: xs)) (hr : Linked s (ys ++ [h]))
    (hnd : (h :: (xs ++ ys)).Nodup) :
    Circle (s.join (xs.getLastD h) (ys.headD h)) h (xs ++ ys) := by
  refine circle_iff_linked.2 ⟨?_, hnd⟩
  obtain ⟨as, hxs⟩ := exists_snoc_getLastD h xs
  obtain ⟨bs, hys⟩ := exists_cons_headD h ys
  generalize xs.getLastD h = p at hxs ⊢
  generalize ys.headD h = n at hys ⊢
  rw [hxs] at hl
  rw [hys] at hr
  obtain ⟨hhd, hnd⟩ := List.nodup_cons.1 hnd
  obtain ⟨hxsd, hysd, hdisj⟩ := List.nodup_append'.1 hnd
  have hbs : (n :: bs).dropLast = ys := by rw [← hys, List.dropLast_concat]
  have has : (as ++ [p]).tail = xs := by rw [← hxs, List.tail_cons]
  have hp : p ∈ h :: xs := by simp [hxs]
  have hn : n ∈ ys ++ [h] := by simp [hys]
  have hasnd : (as ++ [p]).Nodup := hxs ▸ List.nodup_cons.2 ⟨fun hc => hhd (by simp [hc]), hxsd⟩
  have hbsnd : (n :: bs).Nodup := by
    rw [← hys, List.nodup_append']
    exact ⟨hysd, List.nodup_singleton h, by simpa using fun hc => hhd (by simp [hc])⟩
  have hjoin := hl.join hr (by simpa using (List.nodup_append'.1 hasnd).2.2) ?_ ?_
    (List.nodup_cons.1 hbsnd).1
  · have heq : h :: (xs ++ ys ++ [h]) = as ++ p :: n :: bs := by
      rw [← List.cons_append, ← List.cons_append, hxs, List.append_assoc, hys]
      simp
    rwa [heq]
  · rw [hbs]
    intro hc
    rcases List.mem_cons.1 hp with rfl | hp
    · exact hhd (by simp [hc])
    · exact hdisj hp hc
  · rw [has]
    intro hc
    rcases List.mem_append.1 hn with hn | hn
    · exact hdisj hc hn
    · obtain rfl := List.mem_singleton.1 hn
      exact hhd (by simp [hc])

/-- A node is taken out: its neighbours are linked to each other. -/
theorem Circle.removed (hr : Circle s h (xs ++ x :: ys)) :
    Circle (s.join (xs.getLastD h) (ys.headD h)) h (xs ++ ys) := by
  obtain ⟨hl, hr'⟩ := hr.linked_parts
  exact circle_join hl hr'.tail (hr.nodup.sublist (by simp))

/-- A chain of nodes is put between two parts of a ring. -/
theorem Circle.inserted (hr : Circle s h (xs ++ ys)) (hk : Linked s (x :: k))
    (hnd : (h :: (xs ++ (x :: k) ++ ys)).Nodup) :
    Circle ((s.join (k.getLastD x) (ys.headD h)).join (xs.getLastD h) x) h
      (xs ++ (x :: k) ++ ys) := by
  obtain ⟨hl, hr'⟩ := hr.linked_parts
  obtain ⟨as, hk'⟩ := exists_snoc_getLastD x k
  obtain ⟨bs, hys⟩ := exists_cons_headD h ys
  rw [List.append_assoc] at hnd ⊢
  have hlast : k.getLastD x ∈ x :: k := List.getLastD_mem_cons
  have hfirst : ys.headD h ∈ ys ++ [h] := by simp [hys]
  obtain ⟨hhd, hnd'⟩ := List.nodup_cons.1 hnd
  obtain ⟨-, hkys, hxs⟩ := List.nodup_append'.1 hnd'
  obtain ⟨hknd, hysnd, hdisj⟩ := List.nodup_append'.1 hkys
  have hhead : h ∉ x :: k := fun hc => hhd (by simp at hc ⊢; tauto)
  -- the chain is joined to what lies behind it
  have hbehind : Linked (s.join (k.getLastD x) (ys.headD h)) ((x :: k) ++ (ys ++ [h])) := by
    have hbsnd : (ys.headD h :: bs).Nodup := by
      rw [← hys, List.nodup_append']
      exact ⟨hysnd, List.nodup_singleton h, by simpa using fun hc => hhd (by simp [hc])⟩
    have hasnd : (as ++ [k.getLastD x]).Nodup := hk' ▸ hknd
    have hjoin := Linked.join (hk' ▸ hk) (hys ▸ hr')
      (by simpa using (List.nodup_append'.1 hasnd).2.2) ?_ ?_
      (List.nodup_cons.1 hbsnd).1
    · rw [hys, hk']
      simpa using hjoin
    · rw [← hys, List.dropLast_concat]
      exact fun hc => hdisj hlast hc
    · rw [← hk', List.tail_cons]
      intro hc
      rcases List.mem_append.1 hfirst with hf | hf
      · exact hdisj (List.mem_cons_of_mem _ hc) hf
      · exact hhead (List.mem_singleton.1 hf ▸ List.mem_cons_of_mem _ hc)
  have hbefore : Linked (s.join (k.getLastD x) (ys.headD h)) (h :: xs) := by
    refine hl.join_of_notMem (fun hc => ?_) fun hc => ?_
    · rcases List.mem_cons.1 (List.dropLast_subset _ hc) with heq | hmem
      · exact hhead (heq ▸ hlast)
      · exact hxs hmem (List.mem_append_left _ hlast)
    · rw [List.tail_cons] at hc
      rcases List.mem_append.1 hfirst with hf | hf
      · exact hxs hc (List.mem_append_right _ hf)
      · exact hhd (List.mem_append_left _ (List.mem_singleton.1 hf ▸ hc))
  exact circle_join hbefore (by rwa [List.append_assoc]) hnd

omit [DecidableEq α] in
/-- The neighbours of the head. -/
theorem Circle.head_neighbours (hr : Circle s h l) : s.next h = l.headD h ∧
    s.prev h = l.getLastD h := by
  constructor
  · cases l with
    | nil => exact (circle_nil.1 hr).1
    | cons x l => exact hr.forward.head_eq
  · rcases l.eq_nil_or_concat with rfl | ⟨l, x, rfl⟩
    · exact (circle_nil.1 hr).2
    · rw [List.concat_eq_append] at hr ⊢
      rw [hr.prev_head, List.getLastD_concat]

omit [DecidableEq α] in
/-- Two memories hold one ring by the same links. -/
theorem Circle.agree (hr : Circle s h l) (hr' : Circle t h l) : Links.Agree (h :: l) s t := by
  intro x hx
  rcases List.mem_cons.1 hx with rfl | hx
  · exact ⟨hr.head_neighbours.1.trans hr'.head_neighbours.1.symm,
      hr.head_neighbours.2.trans hr'.head_neighbours.2.symm⟩
  · obtain ⟨xs, ys, rfl⟩ := List.append_of_mem hx
    exact ⟨hr.neighbours.2.trans hr'.neighbours.2.symm, hr.neighbours.1.trans hr'.neighbours.1.symm⟩

/-- A ring that has neither of the two nodes. -/
theorem Circle.join_of_notMem (hr : Circle s h l) (hp : p ∉ h :: l) (hn : n ∉ h :: l) :
    Circle (s.join p n) h l := by
  refine hr.congr fun z hz => ⟨(Function.update_of_ne ?_ _ _).symm,
    (Function.update_of_ne ?_ _ _).symm⟩
  · rintro rfl
    exact hp hz
  · rintro rfl
    exact hn hz

end Join

/-! ## Heaps -/

/-- The links `s` hold the rings `σ`: where `σ` maps a head to a sequence, there is a ring of these
nodes, and the rings share none. -/
structure Represents (s : Links α) (N : List α) (σ : α → Option (List α)) : Prop where
  circle : ∀ h l, σ h = some l → Circle s h l
  nodes : ∀ h l, σ h = some l → h :: l ⊆ N
  disjoint : ∀ h l g k, σ h = some l → σ g = some k → h ≠ g → List.Disjoint (h :: l) (g :: k)

/-- A node is linked into one of the rings. -/
def OnRing (σ : α → Option (List α)) (x : α) : Prop := ∃ h l, σ h = some l ∧ x ∈ h :: l

/-- A node is not linked to any other. -/
def Unlinked (σ : α → Option (List α)) (x : α) : Prop :=
  ∀ h l, σ h = some l → x ∈ h :: l → h = x ∧ l = []

section Heap

variable [DecidableEq α] {s t : Links α} {N : List α} {σ σ' : α → Option (List α)}
  {h g x y z : α} {l xs ys k : List α}

omit [DecidableEq α] in
theorem Represents.congr (hs : Represents s N σ) (hst : Links.Agree N s t) : Represents t N σ where
  circle := fun h l hl => (hs.circle h l hl).congr (hst.mono (hs.nodes h l hl))
  nodes := hs.nodes
  disjoint := hs.disjoint

omit [DecidableEq α] in
/-- The rings both heaps have are linked in the same way. -/
theorem Represents.agree (hs : Represents s N σ) (ht : Represents t N σ') (hl : σ h = some l)
    (hl' : σ' h = some l) : Links.Agree (h :: l) s t := (hs.circle h l hl).agree (ht.circle h l hl')

/-- One ring may be forgotten. -/
theorem Represents.drop (hs : Represents s N σ) (x : α) :
    Represents s N (Function.update σ x none) := by
  have hkeep {h : α} {l : List α} (hl : Function.update σ x none h = some l) : σ h = some l := by
    by_cases hx : h = x
    · rw [hx, Function.update_self] at hl
      cases hl
    · rwa [Function.update_of_ne hx] at hl
  exact ⟨fun h l hl => hs.circle h l (hkeep hl), fun h l hl => hs.nodes h l (hkeep hl),
    fun h l g k hl hk => hs.disjoint h l g k (hkeep hl) (hkeep hk)⟩

/-- A ring is replaced: the new one has none of the nodes of the others, which are left alone. -/
theorem Represents.replace (hs : Represents s N σ) (hc : Circle t h l) (hN : h :: l ⊆ N)
    (hother : ∀ g k, σ g = some k → g ≠ h → List.Disjoint (h :: l) (g :: k) ∧ Circle t g k) :
    Represents t N (Function.update σ h (some l)) := by
  have hcase {g : α} {k : List α} (hk : Function.update σ h (some l) g = some k) :
      g = h ∧ k = l ∨ g ≠ h ∧ σ g = some k := by
    by_cases hg : g = h
    · rw [hg, Function.update_self] at hk
      exact .inl ⟨hg, (Option.some.inj hk).symm⟩
    · exact .inr ⟨hg, by rwa [Function.update_of_ne hg] at hk⟩
  refine ⟨fun g k hk => ?_, fun g k hk => ?_, fun g k g' k' hk hk' hne => ?_⟩
  · rcases hcase hk with ⟨rfl, rfl⟩ | ⟨hg, hk⟩
    · exact hc
    · exact (hother g k hk hg).2
  · rcases hcase hk with ⟨rfl, rfl⟩ | ⟨-, hk⟩
    · exact hN
    · exact hs.nodes g k hk
  · rcases hcase hk with ⟨rfl, rfl⟩ | ⟨hg, hσ⟩
    · rcases hcase hk' with ⟨rfl, -⟩ | ⟨hg', hσ'⟩
      · exact absurd rfl hne
      · exact (hother g' k' hσ' hg').1
    · rcases hcase hk' with ⟨rfl, rfl⟩ | ⟨-, hσ'⟩
      · exact fun z hz hz' => (hother g k hσ hg).1 hz' hz
      · exact hs.disjoint g k g' k' hσ hσ' hne

theorem Unlinked.drop (hx : Unlinked σ x) : ¬ OnRing (Function.update σ x none) x := by
  rintro ⟨h, l, hl, hmem⟩
  by_cases hne : h = x
  · rw [hne, Function.update_self] at hl
    cases hl
  · rw [Function.update_of_ne hne] at hl
    exact hne (hx h l hl hmem).1

/-! ### The edits -/

/-- A node is taken out of its ring. -/
theorem Represents.remove (hs : Represents s N σ) (hσ : σ h = some (xs ++ x :: ys)) :
    Represents (s.join (s.prev x) (s.next x)) N (Function.update σ h (some (xs ++ ys))) ∧
      ¬ OnRing (Function.update σ h (some (xs ++ ys))) x := by
  have hr := hs.circle h _ hσ
  have hsub : h :: (xs ++ ys) ⊆ h :: (xs ++ x :: ys) := by
    intro z hz
    simp at hz ⊢
    tauto
  obtain ⟨hprev, hnext⟩ := hr.neighbours
  have hprev_mem : xs.getLastD h ∈ h :: (xs ++ x :: ys) := by
    have := List.getLastD_mem_cons (l := xs) (a := h)
    simp at this ⊢
    tauto
  have hnext_mem : ys.headD h ∈ h :: (xs ++ x :: ys) := by cases ys <;> simp
  rw [hprev, hnext]
  constructor
  · refine hs.replace hr.removed (List.Subset.trans hsub (hs.nodes h _ hσ)) fun g k hk hne => ?_
    have hdis := hs.disjoint h _ g k hσ hk hne.symm
    exact ⟨fun z hz => hdis (hsub hz), (hs.circle g k hk).join_of_notMem (hdis hprev_mem)
      (hdis hnext_mem)⟩
  · rintro ⟨g, k, hk, hmem⟩
    by_cases hg : g = h
    · rw [hg, Function.update_self] at hk
      obtain rfl := Option.some.inj hk
      have hnd := hr.nodup
      rw [hg] at hmem
      simp at hnd hmem
      grind
    · rw [Function.update_of_ne hg] at hk
      exact hs.disjoint h _ g k hσ hk (Ne.symm hg) (by simp) hmem

/-- A chain of nodes that are on no ring is put into a ring. -/
theorem Represents.insertChain (hs : Represents s N σ) (hσ : σ h = some (xs ++ ys))
    (hk : Linked s (x :: k)) (hkN : x :: k ⊆ N) (hknd : (x :: k).Nodup)
    (hfree : ∀ y ∈ x :: k, ¬ OnRing σ y) :
    Represents ((s.join (k.getLastD x) (ys.headD h)).join (xs.getLastD h) x) N
      (Function.update σ h (some (xs ++ (x :: k) ++ ys))) := by
  have hr := hs.circle h _ hσ
  have hfree' {y : α} (hy : y ∈ x :: k) : y ∉ h :: (xs ++ ys) := fun hc => hfree y hy ⟨h, _, hσ, hc⟩
  have hnd : (h :: (xs ++ (x :: k) ++ ys)).Nodup := by
    have hperm : (h :: (xs ++ (x :: k) ++ ys)).Perm ((x :: k) ++ (h :: (xs ++ ys))) := by
      rw [List.append_assoc]
      refine (List.Perm.cons h (List.perm_append_comm_assoc xs (x :: k) ys)).trans ?_
      exact List.perm_middle.symm
    rw [hperm.nodup_iff, List.nodup_append']
    exact ⟨hknd, hr.nodup, fun _ hz => hfree' hz⟩
  have hmem {z : α} : z ∈ h :: (xs ++ (x :: k) ++ ys) ↔ z ∈ h :: (xs ++ ys) ∨ z ∈ x :: k := by
    simp
    tauto
  have hprev_mem : xs.getLastD h ∈ h :: (xs ++ ys) := by
    have := List.getLastD_mem_cons (l := xs) (a := h)
    simp at this ⊢
    tauto
  have hnext_mem : ys.headD h ∈ h :: (xs ++ ys) := by cases ys <;> simp
  refine hs.replace (hr.inserted hk hnd) (fun z hz => ?_) fun g m hm hne => ?_
  · rcases hmem.1 hz with hz | hz
    · exact hs.nodes h _ hσ hz
    · exact hkN hz
  · have hdis := hs.disjoint h _ g m hσ hm hne.symm
    have hout {z : α} (hz : z ∈ x :: k) : z ∉ g :: m := fun hc => hfree z hz ⟨g, m, hm, hc⟩
    constructor
    · intro z hz
      rcases hmem.1 hz with hz | hz
      · exact hdis hz
      · exact hout hz
    · exact ((hs.circle g m hm).join_of_notMem (hout List.getLastD_mem_cons)
        (hdis hnext_mem)).join_of_notMem
        (hdis hprev_mem) (hout List.mem_cons_self)

/-- A node that is on no ring is put into one. -/
theorem Represents.insert (hs : Represents s N σ) (hσ : σ h = some (xs ++ ys)) (hxN : x ∈ N)
    (hfree : ¬ OnRing σ x) : Represents (s.insert x (xs.getLastD h) (ys.headD h)) N
      (Function.update σ h (some (xs ++ x :: ys))) := by
  have hone := hs.insertChain hσ (k := []) (List.IsChain.singleton x) (by simpa)
    (List.nodup_singleton x)
    (by simpa)
  rw [List.append_assoc] at hone
  exact hone

/-- The links of a node that is on no ring do not matter. -/
theorem Represents.setLinks (hs : Represents s N σ) (hfree : ¬ OnRing σ x) (y z : α) :
    Represents ((s.setNext x y).setPrev x z) N σ where
  circle := fun h l hl => by
    refine (hs.circle h l hl).congr fun w hw => ?_
    have hne : w ≠ x := by
      rintro rfl
      exact hfree ⟨h, l, hl, hw⟩
    exact ⟨(Function.update_of_ne hne _ _).symm, (Function.update_of_ne hne _ _).symm⟩
  nodes := hs.nodes
  disjoint := hs.disjoint

/-- A node that is on no ring becomes a ring of its own. -/
theorem Represents.init (hs : Represents s N σ) (hfree : ¬ OnRing σ x) (hxN : x ∈ N) :
    Represents ((s.setNext x x).setPrev x x) N (Function.update σ x (some [])) := by
  refine (hs.setLinks hfree x x).replace
    (circle_nil.2 ⟨Function.update_self .., Function.update_self ..⟩)
    (by simpa) fun g k hk hne => ⟨?_, (hs.setLinks hfree x x).circle g k hk⟩
  intro z hz hc
  obtain rfl := List.mem_singleton.1 hz
  exact hfree ⟨g, k, hk, hc⟩

/-- All nodes of a ring but its head are put into another one; the head is left behind. -/
theorem Represents.splice (hs : Represents s N σ) (hσ : σ h = some (xs ++ ys)) (hg : σ g = some k)
    (hk : k ≠ []) (hne : g ≠ h) :
    Represents ((s.join (xs.getLastD h) (s.next g)).join (s.prev g) (ys.headD h)) N
        (Function.update (Function.update σ g none) h (some (xs ++ k ++ ys))) ∧
      ¬ OnRing (Function.update (Function.update σ g none) h (some (xs ++ k ++ ys))) g := by
  obtain ⟨x, k, rfl⟩ := List.exists_cons_of_ne_nil hk
  have hr := hs.circle g _ hg
  have hnd := (List.nodup_cons.1 hr.nodup).2
  have hdis := hs.disjoint g _ h _ hg hσ hne
  have hlinked : Linked s (x :: k) := by
    have hall : (g :: (x :: k ++ [g])).IsChain _ := (circle_iff_linked.1 hr).1
    exact (List.isChain_append.1 hall.tail).1
  have hfree : ∀ y ∈ x :: k, ¬ OnRing (Function.update σ g none) y := by
    rintro y hy ⟨m, l, hl, hmem⟩
    by_cases hm : m = g
    · rw [hm, Function.update_self] at hl
      cases hl
    · rw [Function.update_of_ne hm] at hl
      exact hs.disjoint g _ m l hg hl (Ne.symm hm) (List.mem_cons_of_mem _ hy) hmem
  have hsub : x :: k ⊆ N := fun z hz => hs.nodes g _ hg (List.mem_cons_of_mem _ hz)
  have hins := (hs.drop g).insertChain (by rwa [Function.update_of_ne hne.symm]) hlinked
    hsub hnd hfree
  obtain ⟨hfirst, hlast⟩ := hr.head_neighbours
  rw [List.headD_cons] at hfirst
  rw [List.getLastD_cons] at hlast
  have hlast_mem : k.getLastD x ∈ g :: x :: k := List.mem_cons_of_mem _ List.getLastD_mem_cons
  have hprev_mem : xs.getLastD h ∈ h :: (xs ++ ys) := by
    have := List.getLastD_mem_cons (l := xs) (a := h)
    simp at this ⊢
    tauto
  have hnext_mem : ys.headD h ∈ h :: (xs ++ ys) := by cases ys <;> simp
  constructor
  · rw [hfirst, hlast, Links.join_comm]
    · exact hins
    · exact fun hc => hdis hlast_mem (hc ▸ hprev_mem)
    · exact fun hc => hdis (by simp : x ∈ g :: x :: k) (hc ▸ hnext_mem)
  · rintro ⟨m, l, hl, hmem⟩
    by_cases hm : m = h
    · rw [hm, Function.update_self] at hl
      obtain rfl := Option.some.inj hl
      have hgk : g ∉ x :: k := (List.nodup_cons.1 hr.nodup).1
      have hgh : g ∉ h :: (xs ++ ys) := hdis List.mem_cons_self
      rw [hm] at hmem
      simp at hmem hgk hgh
      tauto
    · rw [Function.update_of_ne hm] at hl
      by_cases hmg : m = g
      · rw [hmg, Function.update_self] at hl
        cases hl
      · rw [Function.update_of_ne hmg] at hl
        exact hs.disjoint g _ m l hg hl (Ne.symm hmg) List.mem_cons_self hmem

end Heap

/-! ## Sequence operations -/

/-- The edits of a heap of rings. -/
inductive RingOp (α : Type*)
  | add (x h : α)
  | addTail (x h : α)
  | del (x : α)
  | delInit (x : α)
  | move (x h : α)
  | moveTail (x h : α)
  | spliceInit (g h : α)
  | spliceTailInit (g h : α)

variable [DecidableEq α]

/-- What an edit does to the sequences, where it is given what it asks for: an unlinked node to add,
a linked one to take out or to move, two different rings to splice. -/
inductive SeqStep (N : List α) (σ : α → Option (List α)) : RingOp α → (α → Option (List α)) → Prop
  | add {x h : α} {l : List α} (hx : x ∈ N) (hfree : Unlinked σ x) (hne : x ≠ h)
      (hl : σ h = some l) :
    SeqStep N σ (.add x h) (Function.update (Function.update σ x none) h (some (x :: l)))
  | addTail {x h : α} {l : List α} (hx : x ∈ N) (hfree : Unlinked σ x) (hne : x ≠ h)
      (hl : σ h = some l) :
    SeqStep N σ (.addTail x h) (Function.update (Function.update σ x none) h (some (l ++ [x])))
  | del {x h : α} {xs ys : List α} (hl : σ h = some (xs ++ x :: ys)) :
    SeqStep N σ (.del x) (Function.update σ h (some (xs ++ ys)))
  | delInit {x h : α} {xs ys : List α} (hl : σ h = some (xs ++ x :: ys)) :
    SeqStep N σ (.delInit x) (Function.update (Function.update σ h (some (xs ++ ys))) x (some []))
  | move {x g h : α} {xs ys l : List α} (hg : σ g = some (xs ++ x :: ys))
    (hl : Function.update σ g (some (xs ++ ys)) h = some l) :
    SeqStep N σ (.move x h)
      (Function.update (Function.update σ g (some (xs ++ ys))) h (some (x :: l)))
  | moveTail {x g h : α} {xs ys l : List α} (hg : σ g = some (xs ++ x :: ys))
    (hl : Function.update σ g (some (xs ++ ys)) h = some l) :
    SeqStep N σ (.moveTail x h)
      (Function.update (Function.update σ g (some (xs ++ ys))) h (some (l ++ [x])))
  | spliceInit {g h : α} {k l : List α} (hne : g ≠ h) (hg : σ g = some k) (hl : σ h = some l) :
    SeqStep N σ (.spliceInit g h)
      (Function.update (Function.update σ g (some [])) h (some (k ++ l)))
  | spliceTailInit {g h : α} {k l : List α} (hne : g ≠ h) (hg : σ g = some k) (hl : σ h = some l) :
    SeqStep N σ (.spliceTailInit g h)
      (Function.update (Function.update σ g (some [])) h (some (l ++ k)))

end LinkedRing
