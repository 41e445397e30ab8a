import Atfs.Library.RingHeap
import Atfs.Super.Basic

/-!
# The list primitives (list.h)

The remaining primitives of list.h, and what all of them do to a heap of rings: each acts on the
sequences as its name says, whatever the lengths of the rings, and leaves every other ring and every
byte outside the nodes alone.
-/

namespace Atfs

open ByteMemory LinkedChain LinkedRing

/-! ## list.h -/

def listAddTail (b : Nat) (m : Memory) (newNode head : Nat) : Memory :=
  listAddBetween b m newNode (listPrev b m head) head

def listDelInit (b : Nat) (m : Memory) (entry : Nat) : Memory :=
  initListHead b (listDelBetween b m (listPrev b m entry) (listNext b m entry)) entry

def listMoveTail (b : Nat) (m : Memory) (list head : Nat) : Memory :=
  listAddTail b (listDelBetween b m (listPrev b m list) (listNext b m list)) list head

/-- `__list_splice` -/
def listSpliceBetween (b : Nat) (m : Memory) (list prev next : Nat) : Memory :=
  let first := listNext b m list
  let last := listPrev b m list
  let m := setListPrev b m first prev
  let m := setListNext b m prev first
  let m := setListNext b m last next
  setListPrev b m next last

def listSpliceInit (b : Nat) (m : Memory) (list head : Nat) : Memory :=
  if ¬ listEmpty b m list then
    initListHead b (listSpliceBetween b m list head (listNext b m head)) list
  else m

def listSpliceTailInit (b : Nat) (m : Memory) (list head : Nat) : Memory :=
  if ¬ listEmpty b m list then
    initListHead b (listSpliceBetween b m list (listPrev b m head) head) list
  else m

/-- The primitive of list.h for an edit. -/
def listExec (b : Nat) (m : Memory) : RingOp Nat → Memory
  | .add x h => listAdd b m x h
  | .addTail x h => listAddTail b m x h
  | .del x => listDel b m x
  | .delInit x => listDelInit b m x
  | .move x h => listMove b m x h
  | .moveTail x h => listMoveTail b m x h
  | .spliceInit g h => listSpliceInit b m g h
  | .spliceTailInit g h => listSpliceTailInit b m g h

/-- The bytes of the nodes `N`. -/
def listNodeBytes (b : Nat) (N : List Nat) : Set Nat :=
  {a | ∃ p ∈ N, nvmAddr2off b p ≤ a ∧ a < nvmAddr2off b p + 16}

/-- The heap `m'` holds the rings `σ` and differs from `m` in the nodes only. -/
structure HeapStep (b : Nat) (N : List Nat) (m m' : Memory) (σ : Nat → Option (List Nat)) :
    Prop where
  rings : Represents (linksOf b m') N σ
  frame : ChangesOnly (listNodeBytes b N) m m'

section Edit

variable {b x h g v p n : Nat} {m m' : Memory} {N l xs ys k : List Nat}
  {σ σ' : Nat → Option (List Nat)} {op : RingOp Nat}

theorem HeapStep.trans {m'' : Memory} (hs : HeapStep b N m m' σ) (hs' : HeapStep b N m' m'' σ') :
    HeapStep b N m m'' σ' := ⟨hs'.rings, hs.frame.trans hs'.frame⟩

theorem changesOnly_setLink_node (hp : p ∈ N) (f : Field 16) (m : Memory) (v : Nat) :
    ChangesOnly (listNodeBytes b N) m (f.set m (nvmAddr2off b p) v) :=
  (f.changesOnly_set m _ v).mono fun a ha => by
    have := f.fits
    rw [Field.bytes, Set.mem_Ico] at ha
    exact ⟨p, hp, by omega, by omega⟩

theorem changesOnly_listAddBetween_node (hx : x ∈ N) (hp : p ∈ N) (hn : n ∈ N) :
    ChangesOnly (listNodeBytes b N) m (listAddBetween b m x p n) :=
  (((changesOnly_setLink_node hn _ _ _).trans (changesOnly_setLink_node hx _ _ _)).trans
    (changesOnly_setLink_node hx _ _ _)).trans (changesOnly_setLink_node hp _ _ _)

theorem changesOnly_listDelBetween_node (hp : p ∈ N) (hn : n ∈ N) :
    ChangesOnly (listNodeBytes b N) m (listDelBetween b m p n) :=
  (changesOnly_setLink_node hn _ _ _).trans (changesOnly_setLink_node hp _ _ _)

/-- The neighbours of the head are nodes. -/
theorem Represents.head_mem (hs : Represents (linksOf b m) N σ) (hl : σ h = some l) :
    h ∈ N ∧ listNext b m h ∈ N ∧ listPrev b m h ∈ N := by
  have hsub := hs.nodes h l hl
  obtain ⟨hnext, hprev⟩ := (hs.circle h l hl).head_neighbours
  refine ⟨hsub List.mem_cons_self, ?_, ?_⟩
  · rw [show listNext b m h = l.headD h from hnext]
    exact hsub (by cases l <;> simp)
  · rw [show listPrev b m h = l.getLastD h from hprev]
    exact hsub List.getLastD_mem_cons

/-- `__list_add` behind the head. -/
theorem ListNodes.listAdd (hN : ListNodes b N) (hs : Represents (linksOf b m) N σ) (hx : x ∈ N)
    (hfree : ¬ OnRing σ x) (hl : σ h = some l) :
    HeapStep b N m (listAdd b m x h) (Function.update σ h (some (x :: l))) := by
  obtain ⟨hh, hnext, -⟩ := Represents.head_mem hs hl
  refine ⟨?_, changesOnly_listAddBetween_node hx hh hnext⟩
  have hins := hs.insert (show σ h = some ([] ++ l) from hl) hx hfree
  rw [List.getLastD_nil, ← ((hs.circle h l hl).head_neighbours).1] at hins
  exact hins.congr (hN.agree_listAddBetween hx hh hnext).symm

/-- `__list_add` before the head. -/
theorem ListNodes.listAddTail (hN : ListNodes b N) (hs : Represents (linksOf b m) N σ) (hx : x ∈ N)
    (hfree : ¬ OnRing σ x) (hl : σ h = some l) :
    HeapStep b N m (listAddTail b m x h) (Function.update σ h (some (l ++ [x]))) := by
  obtain ⟨hh, -, hprev⟩ := Represents.head_mem hs hl
  refine ⟨?_, changesOnly_listAddBetween_node hx hprev hh⟩
  have hsplit : σ h = some (l ++ []) := by rwa [List.append_nil]
  have hins := hs.insert hsplit hx hfree
  rw [List.headD_nil, ← ((hs.circle h l hl).head_neighbours).2] at hins
  exact hins.congr (hN.agree_listAddBetween hx hprev hh).symm

/-- `__list_del` of a linked node. -/
theorem ListNodes.listDelBetween (hN : ListNodes b N) (hs : Represents (linksOf b m) N σ)
    (hl : σ h = some (xs ++ x :: ys)) :
    HeapStep b N m (listDelBetween b m (listPrev b m x) (listNext b m x))
        (Function.update σ h (some (xs ++ ys))) ∧
      ¬ OnRing (Function.update σ h (some (xs ++ ys))) x ∧ x ∈ N := by
  obtain ⟨hprev, hnext⟩ := Circle.neighbours_mem (hs.circle h _ hl)
  have hsub := hs.nodes h _ hl
  obtain ⟨hrem, hfree⟩ := hs.remove hl
  exact ⟨⟨hrem.congr (hN.agree_listDelBetween (hsub hprev) (hsub hnext)).symm,
    changesOnly_listDelBetween_node (hsub hprev) (hsub hnext)⟩, hfree, hsub (by simp)⟩

/-- `INIT_LIST_HEAD` of a node that is on no ring. -/
theorem ListNodes.initListHead (hN : ListNodes b N) (hs : Represents (linksOf b m) N σ) (hx : x ∈ N)
    (hfree : ¬ OnRing σ x) : HeapStep b N m (initListHead b m x)
    (Function.update σ x (some [])) := by
  refine ⟨(hs.init hfree hx).congr (Links.Agree.symm ?_),
    (changesOnly_setLink_node hx _ _ _).trans (changesOnly_setLink_node hx _ _ _)⟩
  exact (hN.agree_setListPrev hx (hN.lt x hx)).trans
    ((hN.agree_setListNext hx (hN.lt x hx)).setPrev _ _)

/-- The links of a node that is on no ring are cleared. -/
theorem ListNodes.clear (hN : ListNodes b N) (hs : Represents (linksOf b m) N σ) (hx : x ∈ N)
    (hfree : ¬ OnRing σ x) : HeapStep b N m (setListPrev b (setListNext b m x 0) x 0) σ := by
  have hnull : 0 < 2 ^ 64 := by norm_num
  refine ⟨(hs.setLinks hfree 0 0).congr (Links.Agree.symm ?_),
    (changesOnly_setLink_node hx _ _ _).trans (changesOnly_setLink_node hx _ _ _)⟩
  exact (hN.agree_setListPrev hx hnull).trans ((hN.agree_setListNext hx hnull).setPrev _ _)

theorem ListNodes.agree_listSpliceBetween (hN : ListNodes b N) (hfirst : listNext b m g ∈ N)
    (hlast : listPrev b m g ∈ N) (hp : p ∈ N) (hn : n ∈ N) :
    Links.Agree N (linksOf b (listSpliceBetween b m g p n))
      (((linksOf b m).join p (listNext b m g)).join (listPrev b m g) n) := by
  rw [listSpliceBetween]
  generalize listNext b m g = first at hfirst ⊢
  generalize listPrev b m g = last at hlast ⊢
  have h₁ : Links.Agree N (linksOf b (setListPrev b m first p)) ((linksOf b m).setPrev first p) :=
    hN.agree_setListPrev hfirst (hN.lt _ hp)
  generalize setListPrev b m first p = m₁ at h₁ ⊢
  have h₂ : Links.Agree N (linksOf b (setListNext b m₁ p first)) ((linksOf b m).join p first) :=
    (hN.agree_setListNext hp (hN.lt _ hfirst)).trans (h₁.setNext p first)
  generalize setListNext b m₁ p first = m₂ at h₂ ⊢
  have h₃ := (hN.agree_setListNext hlast (hN.lt _ hn)).trans (h₂.setNext last n)
  generalize setListNext b m₂ last n = m₃ at h₃ ⊢
  exact (hN.agree_setListPrev hn (hN.lt _ hlast)).trans (h₃.setPrev n last)

/-- `__list_splice` of the nodes of a ring into another one. -/
theorem ListNodes.listSpliceBetween (hN : ListNodes b N) (hs : Represents (linksOf b m) N σ)
    (hl : σ h = some (xs ++ ys)) (hg : σ g = some k) (hk : k ≠ []) (hne : g ≠ h) :
    HeapStep b N m (listSpliceBetween b m g (xs.getLastD h) (ys.headD h))
        (Function.update (Function.update σ g none) h (some (xs ++ k ++ ys))) ∧
      ¬ OnRing (Function.update (Function.update σ g none) h (some (xs ++ k ++ ys))) g ∧ g ∈ N := by
  obtain ⟨hgN, hfirst, hlast⟩ := Represents.head_mem hs hg
  have hsub := hs.nodes h _ hl
  have hprev : xs.getLastD h ∈ N := hsub (by
    have := List.getLastD_mem_cons (l := xs) (a := h)
    simp at this ⊢
    tauto)
  have hnext : ys.headD h ∈ N := hsub (by cases ys <;> simp)
  obtain ⟨hspl, hfree⟩ := hs.splice hl hg hk hne
  refine ⟨⟨hspl.congr (Links.Agree.symm ?_), ?_⟩, hfree, hgN⟩
  · exact hN.agree_listSpliceBetween hfirst hlast hprev hnext
  · exact (((changesOnly_setLink_node hfirst _ _ _).trans
      (changesOnly_setLink_node hprev _ _ _)).trans
      (changesOnly_setLink_node hlast _ _ _)).trans (changesOnly_setLink_node hnext _ _ _)

theorem listEmpty_iff (hs : Represents (linksOf b m) N σ) (hg : σ g = some k) :
    listEmpty b m g = true ↔ k = [] := beq_iff_eq.trans (hs.circle g k hg).next_eq_head

/-- A splice, and the reset of the head that was left behind. -/
theorem ListNodes.listSpliceInit (hN : ListNodes b N) (hs : Represents (linksOf b m) N σ)
    (hl : σ h = some (xs ++ ys)) (hg : σ g = some k) (hne : g ≠ h) :
    HeapStep b N m
      (if ¬ listEmpty b m g then
        Atfs.initListHead b (Atfs.listSpliceBetween b m g (xs.getLastD h) (ys.headD h)) g
      else m)
      (Function.update (Function.update σ g (some [])) h (some (xs ++ k ++ ys))) := by
  by_cases hk : k = []
  · subst hk
    rw [if_neg (not_not.2 ((listEmpty_iff hs hg).2 rfl)), List.append_nil, ← hg,
      Function.update_eq_self, ← hl, Function.update_eq_self]
    exact ⟨hs, ChangesOnly.refl _ _⟩
  · rw [if_pos (mt (listEmpty_iff hs hg).1 hk)]
    obtain ⟨hstep, hfree, hgN⟩ := hN.listSpliceBetween hs hl hg hk hne
    have hinit := hstep.trans (hN.initListHead hstep.rings hgN hfree)
    rwa [Function.update_comm hne.symm, Function.update_idem] at hinit

/-- Every primitive of list.h acts on the sequences as its name says: the rings stay well formed,
the rings of other sequences are linked as before, and nothing but nodes is written. -/
theorem listExec_refines (hN : ListNodes b N) (hs : Represents (linksOf b m) N σ)
    (hop : SeqStep N σ op σ') :
    Represents (linksOf b (listExec b m op)) N σ' ∧
      (∀ g k, σ g = some k → σ' g = some k →
        Links.Agree (g :: k) (linksOf b m) (linksOf b (listExec b m op))) ∧
      ChangesOnly (listNodeBytes b N) m (listExec b m op) := by
  have hstep : HeapStep b N m (listExec b m op) σ' := by
    cases hop with
    | add hx hfree hne hl =>
      exact hN.listAdd (hs.drop _) hx hfree.drop (by rwa [Function.update_of_ne hne.symm])
    | addTail hx hfree hne hl =>
      exact hN.listAddTail (hs.drop _) hx hfree.drop (by rwa [Function.update_of_ne hne.symm])
    | del hl =>
      obtain ⟨hdel, hfree, hx⟩ := hN.listDelBetween hs hl
      exact hdel.trans (hN.clear hdel.rings hx hfree)
    | delInit hl =>
      obtain ⟨hdel, hfree, hx⟩ := hN.listDelBetween hs hl
      exact hdel.trans (hN.initListHead hdel.rings hx hfree)
    | move hg hl =>
      obtain ⟨hdel, hfree, hx⟩ := hN.listDelBetween hs hg
      exact hdel.trans (hN.listAdd hdel.rings hx hfree hl)
    | moveTail hg hl =>
      obtain ⟨hdel, hfree, hx⟩ := hN.listDelBetween hs hg
      exact hdel.trans (hN.listAddTail hdel.rings hx hfree hl)
    | @spliceInit g h k l hne hg hl =>
      have hspl := hN.listSpliceInit hs (show σ h = some ([] ++ l) from hl) hg hne
      rw [List.getLastD_nil, ← ((hs.circle h l hl).head_neighbours).1] at hspl
      exact hspl
    | @spliceTailInit g h k l hne hg hl =>
      have hsplit : σ h = some (l ++ []) := by rwa [List.append_nil]
      have hspl := hN.listSpliceInit hs hsplit hg hne
      rw [List.headD_nil, ← ((hs.circle h l hl).head_neighbours).2, List.append_nil] at hspl
      exact hspl
  exact ⟨hstep.rings, fun g k hg hg' => hs.agree hstep.rings hg hg', hstep.frame⟩

/-! ### Two rings -/

/-- The heads 16 and 48, and the node 32 on the ring of the first. -/
def twoRings : Memory :=
  listAdd 0 (initListHead 0 (initListHead 0 (fun _ => 0) 16) 48) 32 16

def twoSeqs : Nat → Option (List Nat) := fun p =>
  if p = 16 then some [32] else if p = 48 then some [] else none

theorem listNodes_twoRings : ListNodes 0 [16, 32, 48] := ⟨by decide, by decide⟩

theorem twoSeqs_eq_some {p : Nat} {l : List Nat} (h : twoSeqs p = some l) :
    p = 16 ∧ l = [32] ∨ p = 48 ∧ l = [] := by
  rw [twoSeqs] at h
  split_ifs at h with h16 h48
  · exact .inl ⟨h16, (Option.some.inj h).symm⟩
  · exact .inr ⟨h48, (Option.some.inj h).symm⟩

theorem represents_twoRings : Represents (linksOf 0 twoRings) [16, 32, 48] twoSeqs where
  circle := fun h l hl => by
    obtain ⟨rfl, rfl⟩ | ⟨rfl, rfl⟩ := twoSeqs_eq_some hl
    · refine circle_iff_linked.2 ⟨?_, by decide⟩
      simp only [LinkedRing.Linked, List.cons_append, List.nil_append, List.isChain_cons_cons,
        List.IsChain.singleton, and_true]
      decide
    · exact circle_nil.2 (by decide)
  nodes := fun h l hl => by
    obtain ⟨rfl, rfl⟩ | ⟨rfl, rfl⟩ := twoSeqs_eq_some hl <;> simp
  disjoint := fun h l g k hl hk hne => by
    obtain ⟨rfl, rfl⟩ | ⟨rfl, rfl⟩ := twoSeqs_eq_some hl <;>
      obtain ⟨rfl, rfl⟩ | ⟨rfl, rfl⟩ := twoSeqs_eq_some hk <;> simp at hne ⊢

theorem listExec_refines_sample :
    let m := listExec 0 twoRings (.move 32 48)
    let σ' := Function.update (Function.update twoSeqs 16 (some [])) 48 (some [32])
    Represents (linksOf 0 m) [16, 32, 48] σ' ∧
      (∀ g k, twoSeqs g = some k → σ' g = some k →
        Links.Agree (g :: k) (linksOf 0 twoRings) (linksOf 0 m)) ∧
      ChangesOnly (listNodeBytes 0 [16, 32, 48]) twoRings m :=
  have hg : twoSeqs 16 = some ([] ++ 32 :: []) := rfl
  listExec_refines listNodes_twoRings represents_twoRings (.move hg rfl)

end Edit

end Atfs
