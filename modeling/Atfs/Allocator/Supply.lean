import Atfs.State

/-!
# How long an allocator lasts

A request for pages may fail. An allocator with a supply of `n` pages serves requests for `n` pages
in all, whatever is written to the pages it does not hold and whatever is handed back to it in
between.
-/

namespace Atfs

open ByteMemory

/-- A measure of the supply of an allocator: what is still there after a request, a release and a
write elsewhere. -/
structure PageAllocator.Supply (A : PageAllocator) where
  /-- `Has n m`: in memory `m` there are `n` pages for requests of any size. -/
  Has : Nat → Memory → Prop
  mono : ∀ {k n m}, Has n m → k ≤ n → Has k m
  congr : ∀ {n m m' F}, A.Rep m F → Has n m → Set.EqOn m' m (metadata ∪ bytesOf F) → Has n m'
  alloc : ∀ {n k m F} (cpu : Nat), A.Rep m F → 1 ≤ k → k ≤ maxNumPagePerEntry → Has (n + k) m →
    ∃ node m' cpu', A.alloc m cpu k = some (node, m', cpu') ∧ Has n m'
  free : ∀ {n m F p l} (cpu : Nat), A.Rep m F → Has n m → PageChain m p l → l ≠ [] →
    (∀ q ∈ l, q ∉ F) → Has n (A.free m cpu (p + 4096) l.length).1

/-- A request is served and takes its pages off the supply. -/
theorem PageAllocator.Supply.allocFreePages {A : PageAllocator} (S : A.Supply) {F : Set Nat}
    {s : State} {k n : Nat} (hF : A.Rep s.mem F) (hk : 1 ≤ k) (hk' : k ≤ maxNumPagePerEntry)
    (h : S.Has (n + k) s.mem) :
    ∃ node s', A.allocFreePages s k = .ok (node, s') ∧ S.Has n s'.mem := by
  obtain ⟨node, m', cpu', halloc, hS⟩ := S.alloc s.currentCpu hF hk hk' h
  rw [PageAllocator.allocFreePages, halloc]
  exact ⟨_, _, rfl, hS⟩

/-- In memory `m` the allocator serves requests for `n` more pages. -/
def PageAllocator.Lasts (A : PageAllocator) (n : Nat) (m : Memory) : Prop :=
  ∃ S : A.Supply, S.Has n m

namespace PageAllocator.Lasts

variable {A : PageAllocator} {F : Set Nat} {s s' : State} {m m' : Memory} {k n p node : Nat}
  {l : List Nat}

theorem mono (h : A.Lasts n m) (hk : k ≤ n) : A.Lasts k m := by
  obtain ⟨S, hS⟩ := h
  exact ⟨S, S.mono hS hk⟩

theorem congr (h : A.Lasts n m) (hF : A.Rep m F) (heq : Set.EqOn m' m (metadata ∪ bytesOf F)) :
    A.Lasts n m' := by
  obtain ⟨S, hS⟩ := h
  exact ⟨S, S.congr hF hS heq⟩

/-- A request is served as long as the supply lasts. -/
theorem allocFreePages_ok (h : A.Lasts (n + k) s.mem) (hF : A.Rep s.mem F) (hk : 1 ≤ k)
    (hk' : k ≤ maxNumPagePerEntry) : ∃ r, A.allocFreePages s k = .ok r := by
  obtain ⟨S, hS⟩ := h
  obtain ⟨node, s', halloc, -⟩ := S.allocFreePages hF hk hk' hS
  exact ⟨_, halloc⟩

/-- It takes its pages off the supply. -/
theorem allocFreePages (h : A.Lasts (n + k) s.mem) (hF : A.Rep s.mem F) (hk : 1 ≤ k)
    (hk' : k ≤ maxNumPagePerEntry) (hs : A.allocFreePages s k = .ok (node, s')) :
    A.Lasts n s'.mem := by
  obtain ⟨S, hS⟩ := h
  obtain ⟨node', t, halloc, hS'⟩ := S.allocFreePages hF hk hk' hS
  rw [halloc] at hs
  cases hs
  exact ⟨S, hS'⟩

/-- What is handed back takes nothing off it. -/
theorem freePages (h : A.Lasts n s.mem) (hF : A.Rep s.mem F) (hl : PageChain s.mem p l)
    (hne : l ≠ []) (huse : ∀ q ∈ l, q ∉ F) :
    A.Lasts n (A.freePages s (p + 4096) l.length).mem := by
  obtain ⟨S, hS⟩ := h
  exact ⟨S, S.free s.currentCpu hF hS hl hne huse⟩

/-- No allocator lasts for more pages than it holds. -/
theorem le_length (h : A.Lasts n m) (hF : A.Rep m F) (hl : ∀ q ∈ F, q ∈ l) : n ≤ l.length := by
  obtain ⟨S, hS⟩ := h
  induction n generalizing m F l with
  | zero => exact Nat.zero_le _
  | succ n ih =>
    obtain ⟨node, m', currentCpu, halloc, hS'⟩ := S.alloc 0 hF le_rfl (by decide) hS
    obtain ⟨p, k, F', -, -, hlen, hfresh, hF', hrest, -⟩ := A.alloc_spec hF le_rfl halloc
    obtain ⟨q, rfl⟩ : ∃ q, k = [q] := List.length_eq_one_iff.1 hlen
    have hq := hl q (hfresh q (List.mem_singleton_self q))
    -- The page handed out is free no more, so the others are in the rest of the list.
    have hle := ih (l := l.erase q) hF' (fun r hr => (List.mem_erase_of_ne fun hc =>
      (hrest r hr).2 (List.mem_singleton.2 hc)).2 (hl r (hrest r hr).1)) hS'
    rw [List.length_erase_of_mem hq] at hle
    have := List.length_pos_of_mem hq
    omega

/-- And none for more than there are. -/
theorem le_numPages (h : A.Lasts n m) (hF : A.Rep m F) : n ≤ nvmFreeNumPages := by
  refine (h.le_length (l := (List.range nvmFreeNumPages).map pageOff) hF fun q hq => ?_).trans_eq
    (by rw [List.length_map, List.length_range])
  obtain ⟨i, hi, rfl⟩ := A.rep_page hF q hq
  exact List.mem_map_of_mem (List.mem_range.2 hi)

end PageAllocator.Lasts

end Atfs
