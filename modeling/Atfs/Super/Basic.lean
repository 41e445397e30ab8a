import Atfs.Library.LinkedRing
import Atfs.Inode.Basic

/-!
# The inode list (list.h, super.c)

`sb->s_list` and the `l_node` of every inode are linked by pointers, not by offsets as the pages
are. They mean something relative to the address `b` the region is mapped at, so the functions
of this list take `b` and turn each pointer back into an offset.
-/

namespace Atfs

open ByteMemory LinkedChain LinkedRing

namespace ListHead

@[simps] def next : Field 16 := ⟨0, 8, by decide⟩
@[simps] def prev : Field 16 := ⟨8, 8, by decide⟩

end ListHead

namespace AtfsSuperBlock

@[simps] def sInit : Field 176 := ⟨0, 8, by decide⟩
@[simps] def sBlocksize : Field 176 := ⟨12, 4, by decide⟩
@[simps] def sSize : Field 176 := ⟨16, 8, by decide⟩
@[simps] def sVolumeName : Field 176 := ⟨24, 64, by decide⟩
@[simps] def numBlocks : Field 176 := ⟨96, 8, by decide⟩
@[simps] def freeNumPages : Field 176 := ⟨104, 8, by decide⟩
@[simps] def sList : Field 176 := ⟨112, 16, by decide⟩

/-- The `pthread_mutex_t` of the superblock. -/
@[simps] def mutex : Field 176 := ⟨136, 40, by decide⟩

end AtfsSuperBlock

/-- The `list_head` of an inode. -/
@[simps] def AtfsInode.lNode : Field 216 := ⟨160, 16, by decide⟩

/-! ## Pointers (addr.c) -/

def nvmAddr2off (b addr : Nat) : Nat := subU64 addr b

def nvmOff2addr (b offset : Nat) : Nat := addU64 b offset

/-- `&sb->s_list` -/
def sListAddr (b : Nat) : Nat := nvmOff2addr b AtfsSuperBlock.sList.off

/-- `&inode->l_node` of the inode at an offset. -/
def lNodeAddr (b inode : Nat) : Nat := addU64 (nvmOff2addr b inode) AtfsInode.lNode.off

/-- `list_entry(entry, struct atfs_inode, l_node)`, as an offset. -/
def listEntry (b entry : Nat) : Nat := nvmAddr2off b (subU64 entry AtfsInode.lNode.off)

/-! ## list.h -/

def listNext (b : Nat) (m : Memory) (p : Nat) : Nat := ListHead.next.get m (nvmAddr2off b p)

def listPrev (b : Nat) (m : Memory) (p : Nat) : Nat := ListHead.prev.get m (nvmAddr2off b p)

def setListNext (b : Nat) (m : Memory) (p v : Nat) : Memory :=
  ListHead.next.set m (nvmAddr2off b p) v

def setListPrev (b : Nat) (m : Memory) (p v : Nat) : Memory :=
  ListHead.prev.set m (nvmAddr2off b p) v

def initListHead (b : Nat) (m : Memory) (list : Nat) : Memory :=
  setListPrev b (setListNext b m list list) list list

/-- `__list_add` -/
def listAddBetween (b : Nat) (m : Memory) (newNode prev next : Nat) : Memory :=
  let m := setListPrev b m next newNode
  let m := setListNext b m newNode next
  let m := setListPrev b m newNode prev
  setListNext b m prev newNode

def listAdd (b : Nat) (m : Memory) (newNode head : Nat) : Memory :=
  listAddBetween b m newNode head (listNext b m head)

/-- `__list_del` -/
def listDelBetween (b : Nat) (m : Memory) (prev next : Nat) : Memory :=
  setListNext b (setListPrev b m next prev) prev next

def listDel (b : Nat) (m : Memory) (entry : Nat) : Memory :=
  let m := listDelBetween b m (listPrev b m entry) (listNext b m entry)
  let m := setListNext b m entry 0
  setListPrev b m entry 0

def listMove (b : Nat) (m : Memory) (list head : Nat) : Memory :=
  listAdd b (listDelBetween b m (listPrev b m list) (listNext b m list)) list head

def listEmpty (b : Nat) (m : Memory) (head : Nat) : Bool := listNext b m head == head

/-! ## The links in memory -/

/-- The links that stand in the region mapped at `b`. -/
def linksOf (b : Nat) (m : Memory) : Links Nat := ⟨listNext b m, listPrev b m⟩

/-- The nodes `l` lie in the region mapped at `b`, from `s_list` on, and do not overlap. -/
structure Apart (b : Nat) (l : List Nat) : Prop where
  mapped : ∀ p ∈ l, b + 112 ≤ p ∧ p + 16 ≤ b + nvmMmapSize
  apart : ∀ p ∈ l, ∀ q ∈ l, p ≠ q → p + 16 ≤ q ∨ q + 16 ≤ p
  bound : b + nvmMmapSize ≤ 2 ^ 64

/-- The nodes `l` do not overlap. -/
structure ListNodes (b : Nat) (l : List Nat) : Prop where
  lt : ∀ p ∈ l, p < 2 ^ 64
  apart : ∀ p ∈ l, ∀ q ∈ l, p ≠ q →
    nvmAddr2off b p + 16 ≤ nvmAddr2off b q ∨ nvmAddr2off b q + 16 ≤ nvmAddr2off b p

section Links

variable {b v x h : Nat} {m m' : Memory} {l xs ys : List Nat}

theorem Apart.nvmAddr2off_eq (ha : Apart b l) {p : Nat} (hp : p ∈ l) : nvmAddr2off b p = p - b := by
  have := ha.mapped p hp
  have := ha.bound
  exact subU64_of_le (by omega) (by omega)

theorem Apart.lt (ha : Apart b l) {p : Nat} (hp : p ∈ l) : p < 2 ^ 64 := by
  have := ha.mapped p hp
  have := ha.bound
  omega

theorem Apart.mono {l' : List Nat} (ha : Apart b l) (hl : l' ⊆ l) : Apart b l' :=
  ⟨fun p hp => ha.mapped p (hl hp), fun p hp q hq => ha.apart p (hl hp) q (hl hq), ha.bound⟩

theorem Apart.listNodes (ha : Apart b l) : ListNodes b l := by
  refine ⟨fun p hp => ha.lt hp, fun p hp q hq hpq => ?_⟩
  have hpq := ha.apart p hp q hq hpq
  have h₁ := ha.mapped p hp
  have h₂ := ha.mapped q hq
  rw [ha.nvmAddr2off_eq hp, ha.nvmAddr2off_eq hq]
  omega

/-- Setting one of the two links of a node at the nodes `l`. -/
theorem ListNodes.agree_setListNext (hN : ListNodes b l) {p : Nat} (hp : p ∈ l) (hv : v < 2 ^ 64) :
    Links.Agree l (linksOf b (setListNext b m p v)) ((linksOf b m).setNext p v) := by
  intro q hq
  simp only [linksOf, Links.setNext, listNext, listPrev, setListNext]
  by_cases h : q = p
  · subst h
    rw [Function.update_self]
    exact ⟨Field.get_set_self_of_lt _ _ hv, Field.get_set_of_disjoint _ _ _ (.inr (by simp))⟩
  · rw [Function.update_of_ne h]
    have hpq := hN.apart q hq p hp h
    exact ⟨Field.get_set_of_apart _ _ _ hpq, Field.get_set_of_apart _ _ _ hpq⟩

theorem ListNodes.agree_setListPrev (hN : ListNodes b l) {p : Nat} (hp : p ∈ l) (hv : v < 2 ^ 64) :
    Links.Agree l (linksOf b (setListPrev b m p v)) ((linksOf b m).setPrev p v) := by
  intro q hq
  simp only [linksOf, Links.setPrev, listNext, listPrev, setListPrev]
  by_cases h : q = p
  · subst h
    rw [Function.update_self]
    exact ⟨Field.get_set_of_disjoint _ _ _ (.inl (by simp)), Field.get_set_self_of_lt _ _ hv⟩
  · rw [Function.update_of_ne h]
    have hpq := hN.apart q hq p hp h
    exact ⟨Field.get_set_of_apart _ _ _ hpq, Field.get_set_of_apart _ _ _ hpq⟩

theorem ListNodes.agree_listAddBetween (hN : ListNodes b l) {p n : Nat} (hx : x ∈ l) (hp : p ∈ l)
    (hn : n ∈ l) :
    Links.Agree l (linksOf b (listAddBetween b m x p n)) ((linksOf b m).insert x p n) := by
  refine (hN.agree_setListNext hp (hN.lt x hx)).trans (Links.Agree.setNext ?_ _ _)
  refine (hN.agree_setListPrev hx (hN.lt p hp)).trans (Links.Agree.setPrev ?_ _ _)
  refine (hN.agree_setListNext hx (hN.lt n hn)).trans (Links.Agree.setNext ?_ _ _)
  exact hN.agree_setListPrev hn (hN.lt x hx)

theorem ListNodes.agree_listDelBetween (hN : ListNodes b l) {p n : Nat} (hp : p ∈ l) (hn : n ∈ l) :
    Links.Agree l (linksOf b (listDelBetween b m p n)) ((linksOf b m).join p n) :=
  (hN.agree_setListNext hp (hN.lt n hn)).trans
    (Links.Agree.setNext (hN.agree_setListPrev hn (hN.lt p hp)) _ _)

theorem Apart.agree_listAdd (ha : Apart b l) (hx : x ∈ l) (hh : h ∈ l)
    (hn : listNext b m h ∈ l) :
    Links.Agree l (linksOf b (listAdd b m x h)) ((linksOf b m).add x h) :=
  ha.listNodes.agree_listAddBetween hx hh hn

/-- The edits write nothing in front of `s_list`. -/
theorem Apart.changesOnly_set (ha : Apart b l) {p : Nat} (hp : p ∈ l) (f : Field 16) (m : Memory)
    (v : Nat) : ChangesOnly (Set.Ici 112) m (f.set m (nvmAddr2off b p) v) := by
  have := ha.mapped p hp
  refine f.changesOnly_set_above m v ?_
  rw [ha.nvmAddr2off_eq hp]
  omega

theorem Apart.changesOnly_listAddBetween (ha : Apart b l) {p n : Nat} (hx : x ∈ l) (hp : p ∈ l)
    (hn : n ∈ l) (m : Memory) : ChangesOnly (Set.Ici 112) m (listAddBetween b m x p n) :=
  (((ha.changesOnly_set hn _ _ _).trans (ha.changesOnly_set hx _ _ _)).trans
    (ha.changesOnly_set hx _ _ _)).trans (ha.changesOnly_set hp _ _ _)

theorem Apart.changesOnly_listDelBetween (ha : Apart b l) {p n : Nat} (hp : p ∈ l) (hn : n ∈ l)
    (m : Memory) : ChangesOnly (Set.Ici 112) m (listDelBetween b m p n) :=
  (ha.changesOnly_set hn _ _ _).trans (ha.changesOnly_set hp _ _ _)

/-- A node that is not on the list is put in front. -/
theorem Apart.circle_listAdd (ha : Apart b (x :: h :: l)) (hr : Circle (linksOf b m) h l)
    (hx : x ∉ h :: l) : Circle (linksOf b (listAdd b m x h)) h (x :: l) ∧
      ChangesOnly (Set.Ici 112) m (listAdd b m x h) := by
  have hn : listNext b m h ∈ x :: h :: l := List.mem_cons_of_mem _ hr.next_mem
  refine ⟨(hr.add hx).congr (Links.Agree.symm ?_),
    ha.changesOnly_listAddBetween (by simp) (by simp) hn m⟩
  exact (ha.agree_listAdd (by simp) (by simp) hn).mono (List.Perm.swap x h l).subset

/-- The neighbours of a node are nodes of the ring. -/
theorem Circle.neighbours_mem {s : Links Nat} (hr : Circle s h (xs ++ x :: ys)) :
    s.prev x ∈ h :: (xs ++ x :: ys) ∧ s.next x ∈ h :: (xs ++ x :: ys) := by
  obtain ⟨hp, hn⟩ := hr.neighbours
  rw [hp, hn]
  constructor
  · rcases xs.eq_nil_or_concat with rfl | ⟨zs, z, rfl⟩ <;> simp
  · cases ys <;> simp

/-- A node of the list is taken out of it. -/
theorem Apart.circle_listDelBetween (ha : Apart b (h :: (xs ++ x :: ys)))
    (hr : Circle (linksOf b m) h (xs ++ x :: ys)) :
    Circle (linksOf b (listDelBetween b m (listPrev b m x) (listNext b m x))) h (xs ++ ys) ∧
      ChangesOnly (Set.Ici 112) m (listDelBetween b m (listPrev b m x) (listNext b m x)) := by
  obtain ⟨hp, hn⟩ := Circle.neighbours_mem hr
  refine ⟨hr.join.congr (Links.Agree.symm ((ha.listNodes.agree_listDelBetween hp hn).mono ?_)),
    ha.changesOnly_listDelBetween hp hn m⟩
  intro z hz
  simp at hz ⊢
  grind

theorem Apart.circle_listMove (ha : Apart b (h :: (xs ++ x :: ys)))
    (hr : Circle (linksOf b m) h (xs ++ x :: ys)) :
    Circle (linksOf b (listMove b m x h)) h (x :: (xs ++ ys)) ∧
      ChangesOnly (Set.Ici 112) m (listMove b m x h) := by
  have hnd := hr.nodup
  obtain ⟨hout, hkeep⟩ := ha.circle_listDelBetween hr
  have hx' : Apart b (x :: h :: (xs ++ ys)) := ha.mono fun z hz => by
    simp at hz ⊢
    grind
  obtain ⟨hin, hkeep'⟩ := hx'.circle_listAdd hout (by simp at hnd ⊢; grind)
  exact ⟨hin, hkeep.trans hkeep'⟩

/-- `list_del` and `list_add` of one node, as `start_gc_task` does them. -/
theorem Apart.circle_listDel_listAdd (ha : Apart b (h :: (xs ++ x :: ys)))
    (hr : Circle (linksOf b m) h (xs ++ x :: ys)) :
    Circle (linksOf b (listAdd b (listDel b m x) x h)) h (x :: (xs ++ ys)) ∧
      ChangesOnly (Set.Ici 112) m (listAdd b (listDel b m x) x h) := by
  have hnd := hr.nodup
  have hx : x ∉ h :: (xs ++ ys) := by
    simp at hnd ⊢
    grind
  have hx' : Apart b (x :: h :: (xs ++ ys)) := ha.mono fun z hz => by
    simp at hz ⊢
    grind
  obtain ⟨hout, hkeep⟩ := ha.circle_listDelBetween hr
  obtain ⟨hdel, hkeep'⟩ : Circle (linksOf b (listDel b m x)) h (xs ++ ys) ∧
      ChangesOnly (Set.Ici 112) m (listDel b m x) := by
    rw [listDel]
    generalize listDelBetween b m (listPrev b m x) (listNext b m x) = m₁ at hout hkeep
    refine ⟨hout.congr fun z hz => ?_,
      (hkeep.trans (hx'.changesOnly_set List.mem_cons_self _ _ _)).trans
      (hx'.changesOnly_set List.mem_cons_self _ _ _)⟩
    have hzx : z ≠ x := by
      rintro rfl
      exact hx hz
    -- the links of the node itself are cleared
    have hnull : 0 < 2 ^ 64 := by norm_num
    have hz' := List.mem_cons_of_mem x hz
    have hnext := hx'.listNodes.agree_setListNext (m := m₁) List.mem_cons_self hnull z hz'
    have hprev := hx'.listNodes.agree_setListPrev (m := setListNext b m₁ x 0)
      List.mem_cons_self hnull z hz'
    simp only [Links.setNext, Links.setPrev, Function.update_of_ne hzx] at hnext hprev
    exact ⟨(hprev.1.trans hnext.1).symm, (hprev.2.trans hnext.2).symm⟩
  obtain ⟨hin, hkeep''⟩ := hx'.circle_listAdd hdel hx
  exact ⟨hin, hkeep'.trans hkeep''⟩

/-- Adding a node of the list once more breaks it. -/
theorem Apart.not_circle_listAdd (ha : Apart b (h :: l)) (hr : Circle (linksOf b m) h l)
    (hx : x ∈ l) {l' : List Nat} (hl' : l' ⊆ h :: l) :
    ¬ Circle (linksOf b (listAdd b m x h)) h l' := by
  intro hr'
  refine hr.not_circle_add hx l' (hr'.congr ?_)
  refine (ha.agree_listAdd (List.mem_cons_of_mem _ hx) List.mem_cons_self hr.next_mem).mono ?_
  exact List.cons_subset.2 ⟨List.mem_cons_self, hl'⟩

end Links

end Atfs
