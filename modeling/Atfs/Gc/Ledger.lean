import Atfs.Gc.Live
import Atfs.Gc.Progress

/-!
# The pages that are out

A page that has been taken from `alloc_free_pages` and not been given to `free_pages` since is out.
What an entry of a log appends and what a collection makes of one balance the pages that are out
with those the log owns.
-/

namespace Atfs

open ByteMemory LinkedChain MarkRuns

/-- From `s` to `s'` there are as many pages more out as `n'` is more than `n`. -/
def PagesBalance (s s' : State) (n n' : Nat) : Prop :=
  pagesTaken s'.trace + pagesHanded s.trace + n = pagesTaken s.trace + pagesHanded s'.trace + n'

section Balance

variable {A : PageAllocator} {s s' s'' : State} {n n' n'' k : Nat} {f f' : Frontier} {g : GcVars}
  {es ns : List LogEntry} {evs : List Event} {freed : List Nat}

theorem PagesBalance.refl (s : State) (n : Nat) : PagesBalance s s n n := rfl

theorem PagesBalance.trans (h : PagesBalance s s' n n') (h' : PagesBalance s' s'' n' n'') :
    PagesBalance s s'' n n'' := by
  unfold PagesBalance at *
  omega

theorem PagesBalance.add (h : PagesBalance s s' n n') (k : Nat) : PagesBalance s s' (n + k)
    (n' + k) := by
  unfold PagesBalance at *
  omega

theorem PagesBalance.of_trace (h : s'.trace = s.trace) : PagesBalance s s' n n := by
  rw [PagesBalance, h]

theorem trace_allocFreePages {node : Nat} (h : A.allocFreePages s k = .ok (node, s')) :
    s'.trace = .alloc node k :: s.trace := by
  rw [PageAllocator.allocFreePages] at h
  cases ha : A.alloc s.mem s.currentCpu k with
  | none => simp [ha] at h
  | some r =>
    rw [ha] at h
    cases h
    rfl

/-- `k` pages are taken. -/
theorem PagesBalance.alloc {node : Nat} (h : A.allocFreePages s k = .ok (node, s')) :
    PagesBalance s s' 0 k := by
  rw [PagesBalance, trace_allocFreePages h]
  simp only [pagesTaken, pagesHanded, List.map_cons, List.sum_cons, Event.taken, Event.handed]
  omega

/-- What a log owns: its pages, and those of its entries. -/
theorem length_owned (Ps : List LogPage) : (owned Ps).length = Ps.length +
    (pagesOf (entriesIn Ps)).length := by
  induction Ps with
  | nil => rfl
  | cons P Ps ih =>
    rw [owned_cons, entriesIn_cons, pagesOf_append, List.length_append, List.length_append, ih,
      LogPage.own, List.length_cons, List.length_cons]
    omega

/-- The pages that `get_log_entry` takes have become log pages, and it hands back none. -/
theorem getLogEntry_handed {tail e tail' : Nat} (h : getLogEntry A s tail = .ok (e, tail', s')) :
    pagesHanded s'.trace = pagesHanded s.trace := by
  rw [getLogEntry] at h
  split_ifs at h
  · obtain ⟨⟨pages, s₁⟩, halloc, h⟩ := bind_eq_ok.1 h
    cases h
    simp [pagesHanded, Event.handed, trace_allocFreePages halloc]
  · cases h
    simp [pagesHanded, Event.handed]

/-- The pages that an entry is given and those that are opened for it. -/
theorem getLogEntry_balance {node tail e tail' : Nat}
    (halloc : A.allocFreePages s k = .ok (node, s'))
    (h : getLogEntry A s' tail = .ok (e, tail', s'')) :
    PagesBalance s s'' (pagesOpened s.trace) (k + pagesOpened s''.trace) := by
  have hbalanced := getLogEntry_balanced h
  have hhanded := getLogEntry_handed h
  have hopened : pagesOpened s'.trace = pagesOpened s.trace := by
    simp [pagesOpened, Event.opened, trace_allocFreePages halloc]
  have htaken := PagesBalance.alloc halloc
  unfold PagesBalance Balanced at *
  omega

/-- The entries of a page collected and the page handed back with the pages that were marked. -/
theorem Collecting.balance {inode pageNode node : Nat}
    (hc : Collecting A (pagesOf es) f f' s s' g ns evs freed [])
    (hrun : collectEntries A inode pageNode s = .ok (g, s'))
    (htrace : s''.trace = .free node freed.length :: .free pageNode 1 :: s'.trace) :
    PagesBalance s s'' (1 + (pagesOf es).length) ((pagesOf ns).length + pagesOpened evs) := by
  have hbalanced : Balanced s s' := by
    rw [collectEntries] at hrun
    exact gcEntries_balanced hrun
  have hhanded := hc.appends.handed
  obtain ⟨hhanded', hopened'⟩ := hc.recorded.pagesHanded
  have hperm := hc.perm.length_eq
  rw [List.append_nil, List.length_append] at hperm
  have htaken : pagesTaken s''.trace = pagesTaken s'.trace := by
    rw [htrace]
    simp [pagesTaken, Event.taken]
  have hback : pagesHanded s''.trace = freed.length + 1 + pagesHanded s'.trace := by
    rw [htrace]
    simp [pagesHanded, Event.handed]
    omega
  unfold PagesBalance Balanced at *
  omega

end Balance

end Atfs
