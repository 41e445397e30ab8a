import Atfs.Super.List
import Atfs.Super.Recency
import Atfs.Volume.Beside

/-!
# The inode list of a volume

The calls edit `sb->s_list` and the descriptor of an inode. What they write are the head of the list
and words of inodes behind the files, so that every file stays what it is.
-/

namespace Atfs

open ByteMemory LinkedChain LinkedRing

/-- The head of the list, and the descriptors and the nodes of the inodes `l`. -/
def listedBytes (l : List Nat) : Set Nat :=
  Set.Ico 112 128 ∪ {a | ∃ x ∈ l, a ∈ AtfsInode.fd.bytes x ∪ AtfsInode.lNode.bytes x}

section Ring

variable {b x y : Nat} {m : Memory} {l l' : List Nat} {c : ListCall} {fd : Int}

theorem listedBytes_mono (h : l ⊆ l') : listedBytes l ⊆ listedBytes l' := by
  rintro a (ha | ⟨x, hx, ha⟩)
  · exact .inl ha
  · exact .inr ⟨x, h hx, ha⟩

/-- The bytes of the nodes, as offsets. -/
theorem Located.listNodeBytes_subset (hb : Mapping b) (hl : Located l) :
    listNodeBytes b (sListAddr b :: listNodes b l) ⊆ listedBytes l := by
  rintro a ⟨p, hp, ha, ha'⟩
  rw [(hl.apart_nodes hb).nvmAddr2off_eq hp] at ha ha'
  rcases List.mem_cons.1 hp with rfl | hp
  · rw [sListAddr_eq hb] at ha ha'
    exact .inl (by rw [Set.mem_Ico]; omega)
  · obtain ⟨x, hx, rfl⟩ := List.mem_map.1 hp
    rw [hl.lNodeAddr_eq hb hx] at ha ha'
    refine .inr ⟨x, hx, .inr ?_⟩
    rw [Field.bytes, AtfsInode.lNode_off, AtfsInode.lNode_size, Set.mem_Ico]
    omega

/-- The ring of the list, and no other. -/
def listRing (b : Nat) (l : List Nat) (p : Nat) : Option (List Nat) :=
  if p = sListAddr b then some (listNodes b l) else none

theorem listRing_head (b : Nat) (l : List Nat) : listRing b l (sListAddr b) =
    some (listNodes b l) := if_pos rfl

theorem represents_listRing (hr : Circle (linksOf b m) (sListAddr b) (listNodes b l))
    (hsub : l ⊆ l') :
    Represents (linksOf b m) (sListAddr b :: listNodes b l') (listRing b l) where
  circle h k hk := by
    rw [listRing] at hk
    split_ifs at hk with hh
    obtain rfl := Option.some.inj hk
    exact hh ▸ hr
  nodes h k hk := by
    rw [listRing] at hk
    split_ifs at hk with hh
    obtain rfl := Option.some.inj hk
    exact hh ▸ List.cons_subset_cons _ (List.map_subset _ hsub)
  disjoint h k g k' hk hk' hne := by
    rw [listRing] at hk hk'
    split_ifs at hk hk' with hh hg
    exact absurd (hh.trans hg.symm) hne

/-- A new inode put in front. -/
theorem Located.frame_listAdd (hb : Mapping b) (hl : Located (x :: l)) (hx : x ∉ l)
    (hr : Circle (linksOf b m) (sListAddr b) (listNodes b l)) :
    ChangesOnly (listedBytes (x :: l)) m (listAdd b m (lNodeAddr b x) (sListAddr b)) := by
  have ha := hl.apart_nodes hb
  have hfree : Unlinked (listRing b l) (lNodeAddr b x) := by
    intro h k hk hmem
    rw [listRing] at hk
    split_ifs at hk with hh
    obtain rfl := Option.some.inj hk
    subst hh
    exfalso
    rcases List.mem_cons.1 hmem with hc | hc
    · have := hl.bounds List.mem_cons_self
      rw [hl.lNodeAddr_eq hb List.mem_cons_self, sListAddr_eq hb] at hc
      omega
    · obtain ⟨y, hy, hc⟩ := List.mem_map.1 hc
      exact hx (hl.lNodeAddr_inj hb (List.mem_cons_of_mem _ hy) List.mem_cons_self hc ▸ hy)
  have hne : lNodeAddr b x ≠ sListAddr b := by
    have := hl.bounds List.mem_cons_self
    rw [hl.lNodeAddr_eq hb List.mem_cons_self, sListAddr_eq hb]
    omega
  have hop := SeqStep.add (N := sListAddr b :: listNodes b (x :: l)) (σ := listRing b l)
    (List.mem_cons_of_mem _ (List.mem_map_of_mem List.mem_cons_self)) hfree hne (listRing_head b l)
  obtain ⟨-, -, hframe⟩ := listExec_refines ha.listNodes
    (represents_listRing hr (List.subset_cons_self _ _)) hop
  exact hframe.mono (hl.listNodeBytes_subset hb)

/-- An inode of the list moved to the front. -/
theorem Located.frame_listMove (hb : Mapping b) (hl : Located l) (hx : x ∈ l)
    (hr : Circle (linksOf b m) (sListAddr b) (listNodes b l)) :
    ChangesOnly (listedBytes l) m (listMove b m (lNodeAddr b x) (sListAddr b)) := by
  obtain ⟨xs, ys, rfl⟩ := List.append_of_mem hx
  have hring : listRing b (xs ++ x :: ys) (sListAddr b) =
      some (listNodes b xs ++ lNodeAddr b x :: listNodes b ys) := by
    rw [listRing_head, listNodes, List.map_append, List.map_cons]
    rfl
  have hop := SeqStep.move (N := sListAddr b :: listNodes b (xs ++ x :: ys))
    (h := sListAddr b) hring
    (Function.update_self _ _ _)
  obtain ⟨-, -, hframe⟩ := listExec_refines (hl.apart_nodes hb).listNodes
    (represents_listRing hr (List.Subset.refl _)) hop
  exact hframe.mono (hl.listNodeBytes_subset hb)

/-- The last inode taken out and put in front, as the collector does it. -/
theorem Located.frame_startGcTask (hb : Mapping b) (hl : Located l)
    (hr : Circle (linksOf b m) (sListAddr b) (listNodes b l)) :
    ChangesOnly (listedBytes l) m (InodeList.startGcTask b m).2 := by
  have hempty : listEmpty b m (sListAddr b) = true ↔ listNodes b l = [] :=
    beq_iff_eq.trans hr.next_eq_head
  rw [InodeList.startGcTask]
  rcases l.eq_nil_or_concat with rfl | ⟨xs, x, rfl⟩
  · simp only [if_pos (hempty.2 rfl)]
    exact .refl _ _
  · rw [List.concat_eq_append] at *
    have hprev : listPrev b m (sListAddr b) = lNodeAddr b x := by
      rw [listNodes, List.map_append] at hr
      exact hr.prev_head
    simp only [if_neg (show ¬ listEmpty b m (sListAddr b) = true by rw [hempty]; simp [listNodes]),
      hprev]
    have ha := (hl.apart_nodes hb).listNodes
    have hring : listRing b (xs ++ [x]) (sListAddr b) =
        some (listNodes b xs ++ lNodeAddr b x :: []) := by
      rw [listRing_head, listNodes, List.map_append, List.map_singleton]
      rfl
    obtain ⟨hrings, -, hframe⟩ := listExec_refines ha (represents_listRing hr (List.Subset.refl _))
      (SeqStep.del (N := sListAddr b :: listNodes b (xs ++ [x])) hring)
    have hdel : Circle (linksOf b (listDel b m (lNodeAddr b x))) (sListAddr b)
        (listNodes b xs) := by
      rw [List.append_nil] at hrings
      exact hrings.circle _ _ (Function.update_self _ _ _)
    have hx : x ∉ xs := fun hc => (List.nodup_append'.1 (nodup_listNodes hr)).2.2 hc (by simp)
    have hperm : x :: xs ⊆ xs ++ [x] := by simp
    refine (hframe.mono (hl.listNodeBytes_subset hb)).trans ?_
    exact ((hl.mono hperm).frame_listAdd hb hx hdel).mono (listedBytes_mono hperm)

/-- The bytes a call writes that reinserts nothing. -/
theorem Located.frame_exec (hb : Mapping b) (hl : Located l) (hfit : c.Fits l) (hc : ¬ c.Reinserts)
    (hr : Circle (linksOf b m) (sListAddr b) (listNodes b l)) :
    ChangesOnly (listedBytes (c.recency l)) m (c.exec b m) := by
  have hmove {lookup : Nat} (h : Found l lookup) :
      ChangesOnly (listedBytes (touchFound l lookup)) m (InodeList.moveToFront b m lookup) := by
    rw [touchFound, InodeList.moveToFront]
    split_ifs with hnull
    · exact .refl _ _
    · have hx := h.resolve_left hnull
      refine (hl.frame_listMove hb hx hr).mono (listedBytes_mono ?_)
      exact (List.perm_cons_erase hx).subset
  have hadd {alloc : Nat} (hnew : Allocated l alloc) (h : alloc ≠ offsetNull) (fd : Int) :
      ChangesOnly (listedBytes (touchFound l alloc)) m
        (listAdd b (InodeList.setFd m alloc fd) (lNodeAddr b alloc) (sListAddr b)) := by
    obtain ⟨hx, hl'⟩ := hnew.resolve_left h
    rw [touchFound, if_neg h, touch, List.erase_of_not_mem hx]
    have hset : ChangesOnly (listedBytes (alloc :: l)) m (InodeList.setFd m alloc fd) :=
      (AtfsInode.fd.changesOnly_set _ _ _).mono fun a ha =>
        .inr ⟨alloc, List.mem_cons_self, .inl ha⟩
    have hkeep := (hl'.keepsNodes_setFd List.mem_cons_self m fd).agree hb hl'
    refine hset.trans (hl'.frame_listAdd hb hx (hr.congr (hkeep.mono ?_)))
    exact List.cons_subset_cons _ (List.map_subset _ (List.subset_cons_self _ _))
  cases c with
  | atfscreat fd lookup alloc =>
    rw [ListCall.exec, ListCall.recency, InodeList.atfscreat]
    by_cases h : lookup = offsetNull
    · rw [if_pos h, if_neg (not_not.2 h)]
      by_cases halloc : alloc = offsetNull
      · rw [if_pos halloc]
        exact .refl _ _
      · rw [if_neg halloc]
        exact hadd hfit.2 halloc fd
    · rw [if_pos h]
      exact .refl _ _
  | atfsopen fd lookup alloc flags =>
    rw [ListCall.exec, ListCall.recency, InodeList.atfsopen]
    by_cases hf : flags &&& InodeList.oCreat = 0
    · simp only [hf, ne_eq, not_true_eq_false, not_false_eq_true, if_true, if_false]
      split_ifs <;> exact .refl _ _
    · have h : lookup = offsetNull := by
        by_contra h
        exact hc ⟨h, hf⟩
      simp only [hf, h, ne_eq, not_true_eq_false, not_false_eq_true, if_true, if_false]
      by_cases halloc : alloc = offsetNull
      · rw [if_pos halloc]
        exact .refl _ _
      · rw [if_neg halloc]
        exact hadd hfit.2 halloc fd
  | atfsread lookup => exact hmove hfit
  | atfswrite lookup => exact hmove hfit
  | atfspread lookup => exact hmove hfit
  | atfspwrite lookup => exact hmove hfit
  | startGcTask =>
    refine (hl.frame_startGcTask hb hr).mono (listedBytes_mono ?_)
    rw [ListCall.recency]
    cases hlast : l.getLast? with
    | none => exact List.Subset.refl _
    | some x => exact (List.perm_cons_erase (List.mem_of_getLast? hlast)).subset

end Ring

namespace Volume

section Listed

variable {A : PageAllocator} {F : Set Nat} {logs : Nat → FileLog} {v : Volume} {m : Memory}
  {l : List Nat}

/-- The inodes of a volume lie where the list may link them. -/
theorem Sound.located (h : v.Sound A F logs) (hl : l ⊆ v.files) : Located l where
  inPage x hx := ⟨_, (h.log x (hl hx)).inodeIn⟩
  apart x hx y hy hxy := h.apart x (hl hx) y (hl hy) hxy

/-- Writing to the list does not reach the files. -/
theorem Sound.listed (h : v.Sound A F logs) (hl : l ⊆ v.files)
    (hm : ChangesOnly (listedBytes l) v.state.mem m) :
    v.SideWrite A { v.state with mem := m } where
  frame := hm.mono fun a ha => by
    rcases ha with ha | ⟨x, hx, ha⟩
    · rw [Set.mem_Ico] at ha
      exact .inl (.inl (show a < 114688 by omega))
    · refine .inr ⟨x, hl hx, ha.imp_right fun ha => ?_⟩
      rw [Field.bytes, AtfsInode.lNode_off, AtfsInode.lNode_size, Set.mem_Ico] at ha
      rw [Set.mem_Ico]
      omega
  rep F' hF hhomes := by
    refine A.rep_congr hF (hm.eqOn (Set.disjoint_left.2 fun a ha hc => ?_))
    rcases ha with ha | ⟨x, hx, ha⟩
    · rw [Set.mem_Ico] at ha
      rcases hc with hc | ⟨q, hq, hc⟩
      · rw [mem_metadata] at hc
        omega
      · have := (A.rep_page hF q hq).bounds
        rw [mem_pageBytes] at hc
        omega
    · have hin := (h.log x (hl hx)).inodeIn
      refine Set.disjoint_left.1 (hin.apart (A.rep_page hF) (hhomes _ (h.homes x (hl hx)))) ?_ hc
      simp only [Field.bytes, AtfsInode.fd_off, AtfsInode.fd_size, AtfsInode.lNode_off,
        AtfsInode.lNode_size, Set.mem_union, Set.mem_Ico] at ha
      rw [inodeBytes, Set.mem_Ico]
      omega
  index := rfl
  trace := rfl

end Listed

end Volume

end Atfs
