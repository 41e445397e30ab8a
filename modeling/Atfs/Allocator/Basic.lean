import Atfs.Internal

/-!
# The page allocator (cpu.c, allocator.c)

The page-list table holds the global list at index 0 and the local lists that
`get_cpuid` selects at indices 1 to 64. Every list is a header with a head and
a count, and a chain of page nodes.
-/

namespace Atfs

open ByteMemory LinkedChain

def maxCpuCount : Nat := 0xffffffffffffffff
def minCpuCount : Nat := 0
def gCpuNums : Nat := 64

/-- `get_cpuid`: the answer and the new value of the counter `current_cpu`. -/
def getCpuid (currentCpu : Nat) : Nat × Nat :=
  let cpuid := if currentCpu = maxCpuCount then minCpuCount else currentCpu
  (cpuid % gCpuNums, addU64 cpuid 1)

/-- `node = get_nvm_page_node_addr(node->next_offset)`. -/
def nextNode (m : Memory) (node : Nat) : Nat :=
  getNvmPageNodeAddr (ListNode.nextOffset.get m node)

def fillLocalPageList (m : Memory) (localPageList pageCnt : Nat) : Memory :=
  let globalPageList := getPageListBaseAddr
  let nodeHead := getNvmPageNodeAddr (PageList.head.get m globalPageList)
  let node := (nextNode m)^[pageCnt - 1] nodeHead
  let m := PageList.head.set m globalPageList (ListNode.nextOffset.get m node)
  let m := ListNode.nextOffset.set m node offsetNull
  let m :=
    if PageList.head.get m localPageList = offsetNull then
      PageList.head.set m localPageList (ListNode.offset.get m nodeHead)
    else
      let head := getNvmPageNodeAddr (PageList.head.get m localPageList)
      let next := getNvmPageNodeAddr (ListNode.nextOffset.get m head)
      let m := ListNode.nextOffset.set m head (ListNode.offset.get m nodeHead)
      ListNode.nextOffset.set m node (ListNode.offset.get m next)
  -- `count += -page_cnt`: the int is negated, sign extended and added modulo 2^64
  let m := PageList.count.set m globalPageList
    (addU64 (PageList.count.get m globalPageList) (2 ^ 64 - pageCnt))
  PageList.count.set m localPageList (PageList.count.get m localPageList + pageCnt)

/-- The refill loop of `alloc_free_pages`, with a bound on its iterations. -/
def refillLocalPageList (localPageList pageNum : Nat) : Nat → Memory → Option Memory
  | 0, _ => none
  | fuel + 1, m =>
    let count := PageList.count.get m localPageList
    if count = 0 ∨ count < pageNum then
      refillLocalPageList localPageList pageNum fuel
        (fillLocalPageList m localPageList fillLocalPageListMax)
    else some m

/-- `alloc_free_pages`: the node handed out, the memory and `current_cpu` after. -/
def allocFreePages (m : Memory) (currentCpu pageNum : Nat) : Option (Nat × Memory × Nat) := do
  let (cpuid, currentCpu) := getCpuid currentCpu
  let localPageList := getLocalPageListAddr (cpuid + 1)
  let m ← refillLocalPageList localPageList pageNum (pageNum + 2) m
  let head := getNvmPageNodeAddr (PageList.head.get m localPageList)
  let node := (nextNode m)^[decU32 pageNum] head
  let m := PageList.head.set m localPageList (ListNode.nextOffset.get m node)
  let m := ListNode.nextOffset.set m node offsetNull
  let m := PageList.count.set m localPageList
    (subU64 (PageList.count.get m localPageList) pageNum)
  some (head, m, currentCpu)

/-- `free_pages`: the memory and `current_cpu` after. The counts are not written. -/
def freePages (m : Memory) (currentCpu node pageNum : Nat) : Memory × Nat :=
  let (cpuid, currentCpu) := getCpuid currentCpu
  let localPageList := getLocalPageListAddr (cpuid + 1)
  let pageList :=
    if PageList.count.get m localPageList > fillLocalPageListMax then getPageListBaseAddr
    else localPageList
  let tail := (nextNode m)^[pageNum - 1] node
  let head := getNvmPageNodeAddr (PageList.head.get m pageList)
  let next := ListNode.nextOffset.get m head
  let m := ListNode.nextOffset.set m head (getNvmNode2pageAddr node)
  (ListNode.nextOffset.set m tail next, currentCpu)

/-! ## Well-formed lists -/

/-- The list with index `i` visits the pages `l`, arrives at `e` and has the count `c`. -/
structure ListRep (m : Memory) (i : Nat) (l : List Nat) (e c : Nat) : Prop where
  chain : Segment (pageLink m) (PageList.head.get m (getLocalPageListAddr i)) l e
  count : PageList.count.get m (getLocalPageListAddr i) = c

/-- The allocator invariant: the global list (index 0) and the 64 local lists are
null-terminated, pairwise disjoint chains of pages that know their own offset, each
with its length as count. -/
structure WellFormed (m : Memory) (lists : Nat → List Nat) : Prop where
  rep : ∀ i ≤ gCpuNums, ListRep m i (lists i) offsetNull (lists i).length
  page : ∀ i ≤ gCpuNums, ∀ p ∈ lists i, IsPage p ∧ ListNode.offset.get m (getNvmPageNodeAddr p) = p
  nodup : ∀ i ≤ gCpuNums, (lists i).Nodup
  disjoint : ∀ i ≤ gCpuNums, ∀ j ≤ gCpuNums, i ≠ j → (lists i).Disjoint (lists j)

/-- The pages on the lists. -/
def freeOf (lists : Nat → List Nat) : Set Nat := {p | ∃ i ≤ gCpuNums, p ∈ lists i}


/-! ## Frames between headers and nodes -/

section Frames

variable {i j p : Nat}

theorem header_get_set_node (hi : i ≤ gCpuNums) (hp : IsPage p) (f : Field 56) (g : Field 40)
    (m : Memory) (v : Nat) :
    f.get (g.set m (p + 4096) v) (getLocalPageListAddr i) = f.get m (getLocalPageListAddr i) := by
  refine Field.get_set_of_apart f g m ?_
  have := hp.bounds
  rw [getLocalPageListAddr_eq, gCpuNums] at *
  omega

theorem node_get_set_header (hi : i ≤ gCpuNums) (hp : IsPage p) (f : Field 40) (g : Field 56)
    (m : Memory) (v : Nat) :
    f.get (g.set m (getLocalPageListAddr i) v) (p + 4096) = f.get m (p + 4096) := by
  refine Field.get_set_of_apart f g m ?_
  have := hp.bounds
  rw [getLocalPageListAddr_eq, gCpuNums] at *
  omega

theorem header_get_set_header (h : i ≠ j) (f g : Field 56) (m : Memory) (v : Nat) :
    f.get (g.set m (getLocalPageListAddr j) v) (getLocalPageListAddr i) =
      f.get m (getLocalPageListAddr i) := by
  refine Field.get_set_of_apart f g m ?_
  rw [getLocalPageListAddr_eq, getLocalPageListAddr_eq]
  omega

theorem pageLink_set_header (hi : i ≤ gCpuNums) (hp : IsPage p) (g : Field 56) (m : Memory)
    (v : Nat) : pageLink (g.set m (getLocalPageListAddr i) v) p = pageLink m p := by
  rw [hp.pageLink_eq, hp.pageLink_eq, node_get_set_header hi hp]

end Frames

/-- Walking over nodes is walking over page links. -/
theorem nextNode_iterate (m : Memory) (p n : Nat) :
    (nextNode m)^[n] (getNvmPageNodeAddr p) = getNvmPageNodeAddr ((pageLink m)^[n] p) := by
  induction n generalizing p with
  | zero => rfl
  | succ n ih => exact ih (pageLink m p)

theorem ListRep.frame {m m' : Memory} {i : Nat} {l : List Nat} {e c : Nat} (h : ListRep m i l e c)
    (links : ∀ p ∈ l, pageLink m p = pageLink m' p)
    (head : PageList.head.get m' (getLocalPageListAddr i) =
      PageList.head.get m (getLocalPageListAddr i))
    (count : PageList.count.get m' (getLocalPageListAddr i) =
      PageList.count.get m (getLocalPageListAddr i)) : ListRep m' i l e c where
  chain := by rw [head]; exact h.chain.congr links
  count := count.trans h.count

end Atfs
