import Atfs.Super.Init

/-!
# The order of the inode list (atfsrw.c, gc.c)

`sb->s_list` is meant to hold the inodes from the most to the least recently touched one, so that
`start_gc_task` can take the last. The calls are modelled as far as they edit this list; what
else they do is left open as long as it keeps the nodes of the list. `atfsopen` puts an inode in
front whenever it is given `O_CREAT`, also one that is on the list already.
-/

namespace Atfs

open ByteMemory LinkedChain LinkedRing

namespace InodeList

def oCreat : Nat := 0o100
def eexist : Int := 17
def inodeFailed : Int := -1

/-- `inode->fd = fd` of an `s32`. -/
def setFd (m : Memory) (inode : Nat) (fd : Int) : Memory :=
  AtfsInode.fd.set m inode (fd % 2 ^ 32).toNat

/-- `lookup` stands for the lookup of the file and `alloc` for the result of `alloc_atfs_inode`. -/
def atfscreat (b : Nat) (m : Memory) (fd : Int) (lookup alloc : Nat) : Int × Memory :=
  if lookup ≠ offsetNull then (eexist, m)
  else if alloc = offsetNull then (inodeFailed, m)
  else (fd, listAdd b (setFd m alloc fd) (lNodeAddr b alloc) (sListAddr b))

def atfsopen (b : Nat) (m : Memory) (fd : Int) (lookup alloc flags : Nat) : Int × Memory :=
  let put (inode : Nat) : Int × Memory :=
    if flags &&& oCreat ≠ 0 then
      (fd, listAdd b (setFd m inode fd) (lNodeAddr b inode) (sListAddr b))
    else (fd, m)
  if lookup = offsetNull then
    if ¬ flags &&& oCreat ≠ 0 then (eexist, m)
    else if alloc = offsetNull then (inodeFailed, m)
    else put alloc
  else put lookup

/-- What the reads and writes do to the list. -/
def moveToFront (b : Nat) (m : Memory) (lookup : Nat) : Memory :=
  if lookup = offsetNull then m else listMove b m (lNodeAddr b lookup) (sListAddr b)

def atfsread : Nat → Memory → Nat → Memory := moveToFront
def atfswrite : Nat → Memory → Nat → Memory := moveToFront
def atfspread : Nat → Memory → Nat → Memory := moveToFront
def atfspwrite : Nat → Memory → Nat → Memory := moveToFront

/-- The inode `start_gc_task` collects, and the list it leaves. -/
def startGcTask (b : Nat) (m : Memory) : Option Nat × Memory :=
  let sList := sListAddr b
  if listEmpty b m sList then (none, m)
  else
    let entry := listPrev b m sList
    (some (listEntry b entry), listAdd b (listDel b m entry) entry sList)

end InodeList

/-- A call, with the values its lookup and allocation return. -/
inductive ListCall
  | atfscreat (fd : Int) (lookup alloc : Nat)
  | atfsopen (fd : Int) (lookup alloc flags : Nat)
  | atfsread (lookup : Nat)
  | atfswrite (lookup : Nat)
  | atfspread (lookup : Nat)
  | atfspwrite (lookup : Nat)
  | startGcTask

namespace ListCall

def exec (b : Nat) (m : Memory) : ListCall → Memory
  | .atfscreat fd lookup alloc => (InodeList.atfscreat b m fd lookup alloc).2
  | .atfsopen fd lookup alloc flags => (InodeList.atfsopen b m fd lookup alloc flags).2
  | .atfsread lookup => InodeList.atfsread b m lookup
  | .atfswrite lookup => InodeList.atfswrite b m lookup
  | .atfspread lookup => InodeList.atfspread b m lookup
  | .atfspwrite lookup => InodeList.atfspwrite b m lookup
  | .startGcTask => (InodeList.startGcTask b m).2

end ListCall

/-! ## The order by recency -/

/-- An inode is touched: it comes first. -/
def touch (l : List Nat) (inode : Nat) : List Nat := inode :: l.erase inode

def touchFound (l : List Nat) (lookup : Nat) : List Nat :=
  if lookup = offsetNull then l else touch l lookup

/-- The inodes from the most to the least recently inserted, accessed or collected one. -/
def ListCall.recency (l : List Nat) : ListCall → List Nat
  | .atfscreat _ lookup alloc => if lookup = offsetNull then touchFound l alloc else l
  | .atfsopen _ lookup alloc flags =>
    if flags &&& InodeList.oCreat = 0 then l
    else if lookup = offsetNull then touchFound l alloc else touch l lookup
  | .atfsread lookup => touchFound l lookup
  | .atfswrite lookup => touchFound l lookup
  | .atfspread lookup => touchFound l lookup
  | .atfspwrite lookup => touchFound l lookup
  | .startGcTask => l.getLast?.elim l (touch l)

/-- The inodes lie in pages and do not overlap. -/
structure Located (l : List Nat) : Prop where
  inPage : ∀ x ∈ l, ∃ p, InodeIn x p
  apart : ∀ x ∈ l, ∀ y ∈ l, x ≠ y → x + sizeofAtfsInode ≤ y ∨ y + sizeofAtfsInode ≤ x

/-- A lookup finds an inode of the list or none. -/
def Found (l : List Nat) (lookup : Nat) : Prop := lookup = offsetNull ∨ lookup ∈ l

/-- An allocation fails or returns an inode that is not on the list. -/
def Allocated (l : List Nat) (alloc : Nat) : Prop :=
  alloc = offsetNull ∨ alloc ∉ l ∧ Located (alloc :: l)

def ListCall.Fits (l : List Nat) : ListCall → Prop
  | .atfscreat _ lookup alloc => Found l lookup ∧ Allocated l alloc
  | .atfsopen _ lookup alloc _ => Found l lookup ∧ Allocated l alloc
  | .atfsread lookup => Found l lookup
  | .atfswrite lookup => Found l lookup
  | .atfspread lookup => Found l lookup
  | .atfspwrite lookup => Found l lookup
  | .startGcTask => True

/-- An open with `O_CREAT` of an inode that exists. -/
def ListCall.Reinserts : ListCall → Prop
  | .atfsopen _ lookup _ flags => lookup ≠ offsetNull ∧ flags &&& InodeList.oCreat ≠ 0
  | _ => False

/-! ## Runs -/

/-- `s_init`, the links of `s_list` and those of the inodes `l`. -/
def inodeListBytes (l : List Nat) : Set Nat :=
  Set.Ico 0 8 ∪ Set.Ico 112 128 ∪ {a | ∃ x ∈ l, x + 160 ≤ a ∧ a < x + 176}

/-- Whatever else happened, the nodes of the list are as they were. -/
def KeepsNodes (l : List Nat) (m m' : Memory) : Prop := Set.EqOn m' m (inodeListBytes l)

/-- A call, the memory it finds the list in and the memory it leaves. -/
structure ListStep where
  call : ListCall
  before : Memory
  after : Memory

/-- The steps lead on from the memory `m` with the inodes `l` on the list. Before and after it
edits the list a call may do anything that keeps the nodes of the list. -/
def ListRun (b : Nat) : Memory → List Nat → List ListStep → Prop
  | _, _, [] => True
  | m, l, s :: t => s.call.Fits l ∧ KeepsNodes l m s.before ∧
    KeepsNodes (s.call.recency l) (s.call.exec b s.before) s.after ∧
    ListRun b s.after (s.call.recency l) t

/-- The pointers `sb->s_list` links for the inodes `l`. -/
def listNodes (b : Nat) (l : List Nat) : List Nat := l.map (lNodeAddr b)

/-- The list is a ring of the inodes `l`, each once, and the collector takes the last. -/
structure Recent (b : Nat) (m : Memory) (l : List Nat) : Prop where
  ring : Circle (linksOf b m) (sListAddr b) (listNodes b l)
  nodup : l.Nodup
  oldest : (InodeList.startGcTask b m).1 = l.getLast?

/-- After every step the list is in the order of recency. -/
def StaysRecent (b : Nat) : List Nat → List ListStep → Prop
  | _, [] => True
  | l, s :: t => Recent b s.after (s.call.recency l) ∧ StaysRecent b (s.call.recency l) t

/-! ## Where the nodes lie -/

section Nodes

variable {b x : Nat} {m m' : Memory} {l l' : List Nat}

theorem Located.bounds (hl : Located l) (hx : x ∈ l) : 114688 ≤ x ∧ x + 216 ≤ 2 ^ 34 := by
  obtain ⟨p, hp, hle, hle'⟩ := hl.inPage x hx
  have := hp.bounds
  rw [show sizeofAtfsInode = 216 from rfl] at hle'
  omega

theorem Located.lNodeAddr_eq (hb : Mapping b) (hl : Located l) (hx : x ∈ l) :
    lNodeAddr b x = b + x + 160 := by
  have := hl.bounds hx
  rw [Mapping, show nvmMmapSize = 17179869184 from rfl] at hb
  rw [lNodeAddr, nvmOff2addr, AtfsInode.lNode_off, addU64_of_lt (show b + x < 2 ^ 64 by omega),
    addU64_of_lt (by omega)]

theorem Located.listEntry_eq (hb : Mapping b) (hl : Located l) (hx : x ∈ l) :
    listEntry b (lNodeAddr b x) = x := by
  have := hl.bounds hx
  rw [hl.lNodeAddr_eq hb hx, listEntry, nvmAddr2off, AtfsInode.lNode_off]
  rw [Mapping, show nvmMmapSize = 17179869184 from rfl] at hb
  rw [subU64_of_le (show 160 ≤ b + x + 160 by omega) (by omega), subU64_of_le (by omega) (by omega)]
  omega

theorem Located.mono (hl : Located l) (h : l' ⊆ l) : Located l' :=
  ⟨fun x hx => hl.inPage x (h hx), fun x hx y hy => hl.apart x (h hx) y (h hy)⟩

/-- The nodes of located inodes lie apart. -/
theorem Located.apart_nodes (hb : Mapping b) (hl : Located l) :
    Apart b (sListAddr b :: listNodes b l) := by
  have hpos {p : Nat} (hp : p ∈ sListAddr b :: listNodes b l) :
      p = b + 112 ∨ ∃ x ∈ l, p = b + x + 160 := by
    rcases List.mem_cons.1 hp with rfl | hp
    · exact .inl (sListAddr_eq hb)
    · obtain ⟨x, hx, rfl⟩ := List.mem_map.1 hp
      exact .inr ⟨x, hx, hl.lNodeAddr_eq hb hx⟩
  refine ⟨fun p hp => ?_, fun p hp q hq hpq => ?_, hb⟩
  · rw [show nvmMmapSize = 17179869184 from rfl]
    rcases hpos hp with rfl | ⟨x, hx, rfl⟩
    · omega
    · have := hl.bounds hx
      omega
  · have hsize : sizeofAtfsInode = 216 := rfl
    rcases hpos hp with rfl | ⟨x, hx, rfl⟩
    · rcases hpos hq with rfl | ⟨y, hy, rfl⟩
      · exact absurd rfl hpq
      · have := hl.bounds hy
        omega
    · rcases hpos hq with rfl | ⟨y, hy, rfl⟩
      · have := hl.bounds hx
        omega
      · have := hl.apart x hx y hy (by omega)
        omega

theorem Located.lNodeAddr_inj (hb : Mapping b) (hl : Located l) {y : Nat} (hx : x ∈ l) (hy : y ∈ l)
    (h : lNodeAddr b x = lNodeAddr b y) : x = y := by
  rw [hl.lNodeAddr_eq hb hx, hl.lNodeAddr_eq hb hy] at h
  omega

/-- Keeping the bytes of the nodes keeps their links. -/
theorem KeepsNodes.agree (hb : Mapping b) (hl : Located l) (h : KeepsNodes l m m') :
    Links.Agree (sListAddr b :: listNodes b l) (linksOf b m) (linksOf b m') := by
  have ha := hl.apart_nodes hb
  have hread (p : Nat) (hp : p ∈ sListAddr b :: listNodes b l) (f : Field 16) :
      f.get m (nvmAddr2off b p) = f.get m' (nvmAddr2off b p) := by
    refine (Field.get_congr fun a hab => h ?_).symm
    have := f.fits
    rw [ha.nvmAddr2off_eq hp, Field.bytes, Set.mem_Ico] at hab
    rcases List.mem_cons.1 hp with rfl | hp
    · rw [sListAddr_eq hb] at hab
      exact .inl (.inr ⟨by omega, by omega⟩)
    · obtain ⟨x, hx, rfl⟩ := List.mem_map.1 hp
      rw [hl.lNodeAddr_eq hb hx] at hab
      exact .inr ⟨x, hx, by omega, by omega⟩
  exact fun p hp => ⟨hread p hp _, hread p hp _⟩

/-- The `fd` of an inode is not part of its node. -/
theorem Located.keepsNodes_setFd (hl : Located l) (hx : x ∈ l) (m : Memory) (fd : Int) :
    KeepsNodes l m (InodeList.setFd m x fd) := by
  intro a ha
  refine Field.set_apply_of_outside _ _ ?_
  have := hl.bounds hx
  rw [AtfsInode.fd_off, AtfsInode.fd_size]
  rcases ha with (ha | ha) | ⟨y, hy, ha⟩
  · rw [Set.mem_Ico] at ha
    omega
  · rw [Set.mem_Ico] at ha
    omega
  · by_cases hxy : x = y
    · omega
    · have hxy := hl.apart x hx y hy hxy
      rw [show sizeofAtfsInode = 216 from rfl] at hxy
      omega

end Nodes

/-! ## One call -/

section Step

variable {b x lookup alloc : Nat} {m : Memory} {l : List Nat} {fd : Int}

theorem nodup_listNodes (hr : Circle (linksOf b m) (sListAddr b) (listNodes b l)) : l.Nodup :=
  (List.nodup_cons.1 hr.nodup).2.of_map

theorem Located.touched (hl : Located l) (hx : x ∈ l) : Located (touch l x) :=
  hl.mono (List.cons_subset.2 ⟨hx, List.erase_subset⟩)

/-- In a ring of located inodes the collector finds the last one. -/
theorem Located.recent (hb : Mapping b) (hl : Located l)
    (hr : Circle (linksOf b m) (sListAddr b) (listNodes b l)) : Recent b m l := by
  refine ⟨hr, nodup_listNodes hr, ?_⟩
  rw [InodeList.startGcTask]
  have hempty : listEmpty b m (sListAddr b) = true ↔ listNodes b l = [] :=
    beq_iff_eq.trans hr.next_eq_head
  rcases l.eq_nil_or_concat with rfl | ⟨xs, x, rfl⟩
  · simp only [if_pos (hempty.2 rfl)]
    rfl
  · rw [List.concat_eq_append] at *
    rw [if_neg (by rw [hempty]; simp [listNodes]), List.getLast?_concat]
    have hprev : listPrev b m (sListAddr b) = lNodeAddr b x := by
      rw [listNodes, List.map_append] at hr
      exact hr.prev_head
    simp only [hprev, hl.listEntry_eq hb (x := x) (by simp)]

/-- Moving an inode of the list to its front. -/
theorem Located.circle_listMove (hb : Mapping b) (hl : Located l) (hx : x ∈ l)
    (hr : Circle (linksOf b m) (sListAddr b) (listNodes b l)) :
    Circle (linksOf b (listMove b m (lNodeAddr b x) (sListAddr b))) (sListAddr b)
      (listNodes b (touch l x)) ∧
      ChangesOnly (Set.Ici 112) m (listMove b m (lNodeAddr b x) (sListAddr b)) := by
  have hnd := nodup_listNodes hr
  obtain ⟨xs, ys, rfl⟩ := List.append_of_mem hx
  have hxs : x ∉ xs := fun hc => (List.nodup_append'.1 hnd).2.2 hc List.mem_cons_self
  have ha := hl.apart_nodes hb
  rw [touch, List.erase_append_right _ hxs, List.erase_cons_head]
  simp only [listNodes, List.map_append, List.map_cons] at ha hr ⊢
  exact ha.circle_listMove hr

/-- A lookup that finds an inode moves it to the front. -/
theorem Located.circle_moveToFront (hb : Mapping b) (hl : Located l) (hfit : Found l lookup)
    (hr : Circle (linksOf b m) (sListAddr b) (listNodes b l)) :
    Located (touchFound l lookup) ∧
      Circle (linksOf b (InodeList.moveToFront b m lookup)) (sListAddr b)
        (listNodes b (touchFound l lookup)) ∧
      ChangesOnly (Set.Ici 112) m (InodeList.moveToFront b m lookup) := by
  rw [touchFound, InodeList.moveToFront]
  split_ifs with h
  · exact ⟨hl, hr, ChangesOnly.refl _ _⟩
  · have hx := hfit.resolve_left h
    exact ⟨hl.touched hx, hl.circle_listMove hb hx hr⟩

/-- The collector moves the inode it takes to the front. -/
theorem Located.circle_startGcTask (hb : Mapping b) (hl : Located l)
    (hr : Circle (linksOf b m) (sListAddr b) (listNodes b l)) :
    Located (l.getLast?.elim l (touch l)) ∧
      Circle (linksOf b (InodeList.startGcTask b m).2) (sListAddr b)
        (listNodes b (l.getLast?.elim l (touch l))) ∧
      ChangesOnly (Set.Ici 112) m (InodeList.startGcTask b m).2 := by
  have hnd := nodup_listNodes hr
  have ha := hl.apart_nodes hb
  have hempty : listEmpty b m (sListAddr b) = true ↔ listNodes b l = [] :=
    beq_iff_eq.trans hr.next_eq_head
  rw [InodeList.startGcTask]
  rcases l.eq_nil_or_concat with rfl | ⟨xs, x, rfl⟩
  · simp only [if_pos (hempty.2 rfl)]
    exact ⟨hl, hr, ChangesOnly.refl _ _⟩
  · rw [List.concat_eq_append] at *
    have hxs : x ∉ xs := fun hc => (List.nodup_append'.1 hnd).2.2 hc List.mem_cons_self
    have hprev : listPrev b m (sListAddr b) = lNodeAddr b x := by
      rw [listNodes, List.map_append] at hr
      exact hr.prev_head
    simp only [if_neg (show ¬ listEmpty b m (sListAddr b) = true by rw [hempty]; simp [listNodes]),
      hprev, List.getLast?_concat, Option.elim_some]
    refine ⟨hl.touched (by simp), ?_⟩
    rw [touch, List.erase_append_right _ hxs, List.erase_cons_head]
    simp only [listNodes, List.map_append, List.map_cons] at ha hr ⊢
    exact ha.circle_listDel_listAdd hr

/-- A new inode is put in front. -/
theorem Allocated.circle_listAdd (hb : Mapping b) (hnew : Allocated l alloc)
    (h : alloc ≠ offsetNull) (hr : Circle (linksOf b m) (sListAddr b) (listNodes b l)) (fd : Int) :
    Located (touchFound l alloc) ∧
      Circle (linksOf b (listAdd b (InodeList.setFd m alloc fd) (lNodeAddr b alloc) (sListAddr b)))
        (sListAddr b) (listNodes b (touchFound l alloc)) ∧
      ChangesOnly (Set.Ici 112) m
        (listAdd b (InodeList.setFd m alloc fd) (lNodeAddr b alloc) (sListAddr b)) := by
  obtain ⟨hx, hl⟩ := hnew.resolve_left h
  rw [touchFound, if_neg h, touch, List.erase_of_not_mem hx]
  refine ⟨hl, ?_⟩
  have ha := hl.apart_nodes hb
  have hkeep := (hl.keepsNodes_setFd List.mem_cons_self m fd).agree hb hl
  rw [listNodes, List.map_cons] at ha hkeep ⊢
  have hfresh : lNodeAddr b alloc ∉ sListAddr b :: l.map (lNodeAddr b) := by
    rw [List.mem_cons, List.mem_map]
    rintro (hc | ⟨y, hy, hc⟩)
    · have := hl.bounds List.mem_cons_self
      rw [hl.lNodeAddr_eq hb List.mem_cons_self, sListAddr_eq hb] at hc
      omega
    · exact hx (hl.lNodeAddr_inj hb (List.mem_cons_of_mem _ hy) List.mem_cons_self hc ▸ hy)
  obtain ⟨hin, hbelow⟩ := (ha.mono (List.Perm.swap _ _ _).subset).circle_listAdd
    (hr.congr (hkeep.mono (List.cons_subset.2 ⟨by simp, fun z hz => by simp_all [listNodes]⟩)))
      hfresh
  have hfd : ChangesOnly (Set.Ici 112) m (InodeList.setFd m alloc fd) := by
    have := hl.bounds List.mem_cons_self
    exact AtfsInode.fd.changesOnly_set_above _ _ (by omega)
  exact ⟨hin, hfd.trans hbelow⟩

/-- Every call but an open that reinserts leaves the list in the order of recency. -/
theorem Located.circle_exec (hb : Mapping b) (hl : Located l) {c : ListCall} (hfit : c.Fits l)
    (hc : ¬ c.Reinserts) (hr : Circle (linksOf b m) (sListAddr b) (listNodes b l)) :
    Located (c.recency l) ∧
      Circle (linksOf b (c.exec b m)) (sListAddr b) (listNodes b (c.recency l)) ∧
      ChangesOnly (Set.Ici 112) m (c.exec b m) := by
  cases c with
  | atfscreat fd lookup alloc =>
    rw [ListCall.exec, ListCall.recency, InodeList.atfscreat]
    by_cases h : lookup = offsetNull
    · rw [if_pos h, if_neg (not_not.2 h)]
      by_cases ha : alloc = offsetNull
      · rw [if_pos ha, touchFound, if_pos ha]
        exact ⟨hl, hr, ChangesOnly.refl _ _⟩
      · rw [if_neg ha]
        exact hfit.2.circle_listAdd hb ha hr fd
    · rw [if_neg h, if_pos h]
      exact ⟨hl, hr, ChangesOnly.refl _ _⟩
  | atfsopen fd lookup alloc flags =>
    rw [ListCall.exec, ListCall.recency, InodeList.atfsopen]
    by_cases hf : flags &&& InodeList.oCreat = 0
    · simp only [hf, ne_eq, not_true_eq_false, not_false_eq_true, if_true, if_false]
      split_ifs <;> exact ⟨hl, hr, ChangesOnly.refl _ _⟩
    · have h : lookup = offsetNull := by
        by_contra h
        exact hc ⟨h, hf⟩
      simp only [hf, h, ne_eq, not_true_eq_false, not_false_eq_true, if_true, if_false]
      by_cases ha : alloc = offsetNull
      · rw [if_pos ha, touchFound, if_pos ha]
        exact ⟨hl, hr, ChangesOnly.refl _ _⟩
      · rw [if_neg ha]
        exact hfit.2.circle_listAdd hb ha hr fd
  | atfsread lookup => exact hl.circle_moveToFront hb hfit hr
  | atfswrite lookup => exact hl.circle_moveToFront hb hfit hr
  | atfspread lookup => exact hl.circle_moveToFront hb hfit hr
  | atfspwrite lookup => exact hl.circle_moveToFront hb hfit hr
  | startGcTask =>
    rw [ListCall.exec, ListCall.recency]
    exact hl.circle_startGcTask hb hr

/-- An open that reinserts breaks the list. -/
theorem Located.not_circle_exec (hb : Mapping b) (hl : Located l) {c : ListCall} (hfit : c.Fits l)
    (hc : c.Reinserts) (hr : Circle (linksOf b m) (sListAddr b) (listNodes b l)) :
    Located (c.recency l) ∧
      ¬ Circle (linksOf b (c.exec b m)) (sListAddr b) (listNodes b (c.recency l)) := by
  cases c with
  | atfsopen fd lookup alloc flags =>
    obtain ⟨h, hf⟩ := hc
    have hx := hfit.1.resolve_left h
    rw [ListCall.exec, ListCall.recency, InodeList.atfsopen]
    simp only [hf, h, ne_eq, not_false_eq_true, if_true, if_false]
    refine ⟨hl.touched hx, ?_⟩
    have hkeep := (hl.keepsNodes_setFd hx m fd).agree hb hl
    refine (hl.apart_nodes hb).not_circle_listAdd (hr.congr hkeep) (List.mem_map_of_mem hx) ?_
    exact fun z hz => List.mem_cons_of_mem _ (List.map_subset _
      (List.cons_subset.2 ⟨hx, List.erase_subset⟩) hz)
  | _ => exact absurd hc id

end Step

/-! ## Whole runs -/

section Run

variable {b : Nat} {m : Memory} {l : List Nat} {t : List ListStep}

/-- `sb->s_list` is a proper list in the order of recency after every step exactly if no open
with `O_CREAT` finds its inode on the list already. -/
theorem inodeList_recent_iff (hb : Mapping b) (hl : Located l) (h : Recent b m l)
    (hrun : ListRun b m l t) : StaysRecent b l t ↔ ∀ s ∈ t, ¬ s.call.Reinserts := by
  induction t generalizing m l with
  | nil => exact ⟨fun _ s hs => absurd hs List.not_mem_nil, fun _ => trivial⟩
  | cons s t ih =>
    obtain ⟨hfit, hbefore, hafter, hrun⟩ := hrun
    have hr := h.ring.congr (hbefore.agree hb hl)
    rw [List.forall_mem_cons]
    by_cases hc : s.call.Reinserts
    · obtain ⟨hl', hbroken⟩ := hl.not_circle_exec hb hfit hc hr
      constructor
      · exact fun hs => absurd (hs.1.ring.congr (hafter.agree hb hl').symm) hbroken
      · exact fun hs => absurd hc hs.1
    · obtain ⟨hl', hr', -⟩ := hl.circle_exec hb hfit hc hr
      have hnext := hl'.recent hb (hr'.congr (hafter.agree hb hl'))
      rw [StaysRecent, ih hl' hnext hrun]
      exact ⟨fun hs => ⟨hc, hs.2⟩, fun hs => ⟨hnext, hs.2⟩⟩

/-- The memory after the steps. -/
def lastMemory (m : Memory) (t : List ListStep) : Memory := (t.getLast?.map ListStep.after).getD m

theorem lastMemory_cons (m : Memory) (s : ListStep) (t : List ListStep) :
    lastMemory m (s :: t) = lastMemory s.after t := by
  cases t with
  | nil => rfl
  | cons s' t =>
    rw [lastMemory, lastMemory, List.getLast?_cons_cons]
    rfl

/-- A run that keeps the list in order keeps the word `s_init`. -/
theorem ListRun.sInit (hb : Mapping b) (hl : Located l) (h : Recent b m l) (hrun : ListRun b m l t)
    (hgood : ∀ s ∈ t, ¬ s.call.Reinserts) :
    AtfsSuperBlock.sInit.get (lastMemory m t) 0 = AtfsSuperBlock.sInit.get m 0 := by
  have hword {l : List Nat} {m m' : Memory} (h : KeepsNodes l m m') :
      AtfsSuperBlock.sInit.get m' 0 = AtfsSuperBlock.sInit.get m 0 :=
    Field.get_congr fun a ha => h (.inl (.inl (by simpa [Field.bytes] using ha)))
  induction t generalizing m l with
  | nil => rfl
  | cons s t ih =>
    obtain ⟨hfit, hbefore, hafter, hrun⟩ := hrun
    obtain ⟨hs, ht⟩ := List.forall_mem_cons.1 hgood
    have hr := h.ring.congr (hbefore.agree hb hl)
    obtain ⟨hl', hr', hbelow⟩ := hl.circle_exec hb hfit hs hr
    rw [lastMemory_cons, ih hl' (hl'.recent hb (hr'.congr (hafter.agree hb hl'))) hrun ht,
      hword hafter, hbelow.get AtfsSuperBlock.sInit ?_, hword hbefore]
    refine Set.disjoint_left.2 fun a ha hc => ?_
    rw [Set.mem_Ici] at ha
    rw [Field.bytes, AtfsSuperBlock.sInit_off, AtfsSuperBlock.sInit_size, Set.mem_Ico] at hc
    omega

/-- The steps of calls that do nothing besides. -/
def plainSteps (b : Nat) : Memory → List ListCall → List ListStep
  | _, [] => []
  | m, c :: cs => ⟨c, m, c.exec b m⟩ :: plainSteps b (c.exec b m) cs

def FitAll : List Nat → List ListCall → Prop
  | _, [] => True
  | l, c :: cs => c.Fits l ∧ FitAll (c.recency l) cs

theorem listRun_plainSteps {cs : List ListCall} (h : FitAll l cs) :
    ListRun b m l (plainSteps b m cs) := by
  induction cs generalizing m l with
  | nil => trivial
  | cons c cs ih => exact ⟨h.1, fun _ _ => rfl, fun _ _ => rfl, ih h.2⟩

/-- An empty list, in a region mapped at `2 ^ 20`. -/
def emptyList : Memory := initListHead (2 ^ 20) (fun _ => 0) (sListAddr (2 ^ 20))

theorem emptyList_recent : Recent (2 ^ 20) emptyList [] :=
  Located.recent (show 2 ^ 20 + nvmMmapSize ≤ 2 ^ 64 by decide)
    ⟨fun _ h => absurd h List.not_mem_nil, fun _ h => absurd h List.not_mem_nil⟩
    ((apart_sListAddr (show 2 ^ 20 + nvmMmapSize ≤ 2 ^ 64 by decide)).circle_initListHead _)

/-- The first two inodes of the first page. -/
theorem located_first : Located [114904, 114688] := by
  have hin {x : Nat} (h : 114688 ≤ x) (h' : x + 216 ≤ 114688 + 4096) : ∃ p, InodeIn x p :=
    ⟨114688, ⟨0, by decide, (pageOff_eq 0).symm⟩, h, h'⟩
  refine ⟨fun x hx => ?_, fun x hx y hy hxy => ?_⟩
  · rcases List.mem_pair.1 hx with rfl | rfl
    · exact hin (by omega) (by omega)
    · exact hin (by omega) (by omega)
  · rw [show sizeofAtfsInode = 216 from rfl]
    rcases List.mem_pair.1 hx with rfl | rfl <;> rcases List.mem_pair.1 hy with rfl | rfl <;> omega

/-- Two files are created, the older one is read and the other collected. -/
theorem inodeList_recent_iff_sample :
    StaysRecent (2 ^ 20) [] (plainSteps (2 ^ 20) emptyList
      [.atfscreat 3 offsetNull 114688, .atfscreat 4 offsetNull 114904, .atfsread 114688,
        .startGcTask]) := by
  refine (inodeList_recent_iff (show 2 ^ 20 + nvmMmapSize ≤ 2 ^ 64 by decide)
    (located_first.mono (List.nil_subset _)) emptyList_recent (listRun_plainSteps ?_)).2 ?_
  · refine ⟨⟨.inl rfl, .inr ⟨List.not_mem_nil, located_first.mono (by simp)⟩⟩,
      ⟨.inl rfl, .inr ⟨by decide, located_first⟩⟩, .inr (by decide), trivial, trivial⟩
  · intro s hs
    simp only [plainSteps, List.mem_cons, List.not_mem_nil, or_false] at hs
    rcases hs with rfl | rfl | rfl | rfl <;> exact id

/-- A file is created and opened with `O_CREAT`: its node is linked to itself and the head of
the list is not reached any more. -/
theorem atfsopen_not_recent :
    ListRun (2 ^ 20) emptyList [] (plainSteps (2 ^ 20) emptyList
        [.atfscreat 3 offsetNull 114688, .atfsopen 3 114688 offsetNull InodeList.oCreat]) ∧
      ¬ StaysRecent (2 ^ 20) [] (plainSteps (2 ^ 20) emptyList
        [.atfscreat 3 offsetNull 114688, .atfsopen 3 114688 offsetNull InodeList.oCreat]) := by
  have hone : Located [114688] := located_first.mono (by simp)
  refine ⟨listRun_plainSteps ⟨⟨.inl rfl, .inr ⟨List.not_mem_nil, hone⟩⟩,
    ⟨.inr (by decide), .inl rfl⟩, trivial⟩, ?_⟩
  rintro ⟨hcreat, hopen, -⟩
  exact (hone.not_circle_exec (c := .atfsopen 3 114688 offsetNull InodeList.oCreat)
    (show 2 ^ 20 + nvmMmapSize ≤ 2 ^ 64 by decide) ⟨.inr (by decide), .inl rfl⟩
    ⟨by decide, by decide⟩ hcreat.ring).2 hopen.ring

end Run

end Atfs
