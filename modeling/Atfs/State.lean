import Atfs.Internal

/-!
# The state of the file system

The state is the NVM region, the page index of every inode, the counter behind
`get_cpuid` and a record of what a run has done so far. The index stands for
`get_bplustree_node`, which the code declares and does not define: a map from
page-aligned file offsets to page offsets. The page allocator and
`update_radixtree` are parameters, `PageAllocator` and (with the log) `RadixTree`.
-/

namespace Atfs

open ByteMemory LinkedChain

/-- What a run has done: the calls of the allocator by the code above it, a page becoming
the last page of a log, and the entries handed out by `get_log_entry`. -/
inductive Event
  | alloc (node pageNum : Nat)
  | free (node pageNum : Nat)
  | logPage (page : Nat)
  | logEntry (entry : Nat)
  deriving DecidableEq

/-- Why a call does not return. -/
inductive Fault
  /-- The allocator has no pages left. -/
  | noPages
  /-- A null pointer is dereferenced. -/
  | nullPointer
  /-- The bound on the iterations of a loop is reached. -/
  | outOfFuel
  deriving DecidableEq

@[ext] structure State where
  mem : Memory
  /-- `get_bplustree_node` of the inode at an offset. -/
  index : Nat → Nat → Nat
  currentCpu : Nat
  /-- What the run has done, the newest first. -/
  trace : List Event

/-- A computation that returns has returned from each of its parts. -/
theorem bind_eq_ok {α β : Type} {x : Except Fault α} {f : α → Except Fault β} {b : β} :
    x >>= f = .ok b ↔ ∃ a, x = .ok a ∧ f a = .ok b := by
  cases x with
  | error e => simp [bind, Except.bind]
  | ok a => simp [bind, Except.bind]

/-- A computation that fails has failed in one of its parts. -/
theorem bind_eq_error {α β : Type} {x : Except Fault α} {f : α → Except Fault β} {e : Fault} :
    x >>= f = .error e ↔ x = .error e ∨ ∃ a, x = .ok a ∧ f a = .error e := by
  cases x with
  | error e => simp [bind, Except.bind]
  | ok a => simp [bind, Except.bind]

/-! ## Regions -/

/-- What the allocator keeps to itself: the metadata between superblock and free space.
The node of the null offset starts at 4095. -/
def metadata : Set Nat := Set.Ico 4095 114688

def pageBytes (p : Nat) : Set Nat := Set.Ico p (p + 4136)

def bodyBytes (p : Nat) : Set Nat := Set.Ico p (p + 4096)

def linkBytes (p : Nat) : Set Nat := Set.Ico (p + 4096) (p + 4104)

/-- The bytes of a set of pages. -/
def bytesOf (F : Set Nat) : Set Nat := {a | ∃ p ∈ F, a ∈ pageBytes p}

/-- What an allocator call may write: its metadata and the links of the pages. -/
def allocatorBytes (F : Set Nat) : Set Nat := metadata ∪ {a | ∃ p ∈ F, a ∈ linkBytes p}

section Regions

variable {F : Set Nat} {p a : Nat}

@[simp] theorem mem_metadata : a ∈ metadata ↔ 4095 ≤ a ∧ a < 114688 := Iff.rfl

@[simp] theorem mem_pageBytes : a ∈ pageBytes p ↔ p ≤ a ∧ a < p + 4136 := Iff.rfl

@[simp] theorem mem_bodyBytes : a ∈ bodyBytes p ↔ p ≤ a ∧ a < p + 4096 := Iff.rfl

@[simp] theorem mem_linkBytes : a ∈ linkBytes p ↔ p + 4096 ≤ a ∧ a < p + 4104 := Iff.rfl

theorem changesOnly_setLink (m : Memory) (p v : Nat) :
    ChangesOnly (linkBytes p) m (ListNode.nextOffset.set m (p + 4096) v) :=
  ListNode.nextOffset.changesOnly_set m _ v

/-- A page outside `F` shares no byte with the pages of `F`. -/
theorem not_mem_bytesOf (hF : ∀ q ∈ F, IsPage q) (hp : IsPage p) (hpF : p ∉ F)
    (ha : a ∈ pageBytes p) : a ∉ bytesOf F := by
  rintro ⟨q, hq, haq⟩
  have := hp.apart (hF q hq) (by rintro rfl; exact hpF hq)
  simp only [mem_pageBytes] at ha haq
  omega

theorem allocatorBytes_subset : allocatorBytes F ⊆ metadata ∪ bytesOf F := by
  rintro a (ha | ⟨p, hp, ha⟩)
  · exact .inl ha
  · exact .inr ⟨p, hp, by simp only [mem_linkBytes, mem_pageBytes] at *; omega⟩

theorem allocatorBytes_mono {F' : Set Nat} (h : F ⊆ F') : allocatorBytes F ⊆ allocatorBytes F' := by
  rintro a (ha | ⟨p, hp, ha⟩)
  · exact .inl ha
  · exact .inr ⟨p, h hp, ha⟩

/-- An allocator call keeps every page it does not hold. -/
theorem not_mem_allocatorBytes (hF : ∀ q ∈ F, IsPage q) (hp : IsPage p) (hpF : p ∉ F)
    (ha : a ∈ pageBytes p) : a ∉ allocatorBytes F := by
  intro h
  rcases allocatorBytes_subset h with h | h
  · have := hp.bounds
    simp only [mem_metadata, mem_pageBytes] at *
    omega
  · exact not_mem_bytesOf hF hp hpF ha h

/-- What is written to pages outside `F` reaches neither the metadata nor the pages of `F`. -/
theorem eqOn_of_inUse {V : Set Nat} {m m' : Memory} (hF : ∀ q ∈ F, IsPage q)
    (hm : ChangesOnly V m m') (hV : ∀ a ∈ V, ∃ q, IsPage q ∧ q ∉ F ∧ a ∈ pageBytes q) :
    Set.EqOn m' m (metadata ∪ bytesOf F) := by
  refine hm.eqOn (Set.disjoint_left.2 fun a ha hc => ?_)
  obtain ⟨q, hq, hqF, haq⟩ := hV a ha
  rcases hc with hc | hc
  · have := hq.bounds
    rw [mem_metadata] at hc
    rw [mem_pageBytes] at haq
    omega
  · exact not_mem_bytesOf hF hq hqF haq hc

end Regions

/-! ## The page allocator -/

/-- A null-terminated chain of distinct pages that know their own offset. -/
structure PageChain (m : Memory) (p : Nat) (l : List Nat) : Prop where
  chain : Segment (pageLink m) p l offsetNull
  nodup : l.Nodup
  page : ∀ q ∈ l, IsPage q
  offset : ∀ q ∈ l, ListNode.offset.get m (q + 4096) = q

/-- A chain starts with the first of its pages. -/
theorem PageChain.head_mem {m : Memory} {p : Nat} {l : List Nat} (h : PageChain m p l)
    (hl : 1 ≤ l.length) : p ∈ l := by
  obtain ⟨q, rest, rfl⟩ := List.exists_cons_of_length_pos hl
  rw [h.chain.head_eq]
  exact List.mem_cons_self

theorem PageChain.headD_eq {m : Memory} {p : Nat} {l : List Nat} (h : PageChain m p l) :
    l.headD offsetNull = p := by
  cases l with
  | nil => exact (segment_nil.1 h.chain).symm
  | cons q rest => exact h.chain.head_eq.symm

/-- A chain is decided by the first 16 bytes of the nodes of its pages. -/
theorem PageChain.congr {m m' : Memory} {p : Nat} {l : List Nat} (h : PageChain m p l)
    (heq : ∀ q ∈ l, Set.EqOn m' m (Set.Ico (q + 4096) (q + 4112))) : PageChain m' p l where
  chain := h.chain.congr fun q hq => (h.page q hq).pageLink_congr fun a ha =>
    (heq q hq (by rw [Set.mem_Ico] at *; omega)).symm
  nodup := h.nodup
  page := h.page
  offset := fun q hq => by
    refine (Field.get_congr fun a ha => heq q hq ?_).trans (h.offset q hq)
    simp only [Field.bytes, ListNode.offset_off, ListNode.offset_size, Set.mem_Ico] at ha
    rw [Set.mem_Ico]
    omega

/-- The contract of an allocator: it holds a set of free pages, hands out chains of them,
takes chains back, and writes nothing but its metadata and the links of these pages. -/
structure PageAllocator where
  alloc : Memory → Nat → Nat → Option (Nat × Memory × Nat)
  free : Memory → Nat → Nat → Nat → Memory × Nat
  /-- `Rep m F`: in memory `m` the allocator holds the pages `F`. -/
  Rep : Memory → Set Nat → Prop
  rep_page : ∀ {m F}, Rep m F → ∀ p ∈ F, IsPage p
  rep_congr : ∀ {m m' F}, Rep m F → Set.EqOn m' m (metadata ∪ bytesOf F) → Rep m' F
  alloc_spec : ∀ {m F cpu n node m' cpu'}, Rep m F → 1 ≤ n → alloc m cpu n = some (node, m', cpu') →
    ∃ p l F', node = p + 4096 ∧ PageChain m' p l ∧ l.length = n ∧ (∀ q ∈ l, q ∈ F) ∧
      Rep m' F' ∧ (∀ q ∈ F', q ∈ F ∧ q ∉ l) ∧ ChangesOnly (allocatorBytes F) m m'
  free_spec : ∀ {m F cpu p l}, Rep m F → PageChain m p l → l ≠ [] → (∀ q ∈ l, q ∉ F) →
    ∃ F', Rep (free m cpu (p + 4096) l.length).1 F' ∧ (∀ q ∈ F', q ∈ F ∨ q ∈ l) ∧
      ChangesOnly (allocatorBytes (F ∪ {q | q ∈ l})) m (free m cpu (p + 4096) l.length).1

namespace PageAllocator

variable (A : PageAllocator)

def allocFreePages (s : State) (pageNum : Nat) : Except Fault (Nat × State) :=
  match A.alloc s.mem s.currentCpu pageNum with
  | some (node, m, cpu) =>
    .ok (node, { s with mem := m, currentCpu := cpu, trace := .alloc node pageNum :: s.trace })
  | none => .error .noPages

def freePages (s : State) (node pageNum : Nat) : State :=
  let (m, cpu) := A.free s.mem s.currentCpu node pageNum
  { s with mem := m, currentCpu := cpu, trace := .free node pageNum :: s.trace }

variable {A} {s s' : State} {F F' : Set Nat} {p : Nat} {l : List Nat}

/-- What a successful allocation of the pages `l` leaves behind. -/
structure Allocated (A : PageAllocator) (s s' : State) (F F' : Set Nat) (p : Nat)
    (l : List Nat) : Prop where
  chain : PageChain s'.mem p l
  fresh : ∀ q ∈ l, q ∈ F
  rep : A.Rep s'.mem F'
  rest : ∀ q ∈ F', q ∈ F ∧ q ∉ l
  frame : ChangesOnly (allocatorBytes F) s.mem s'.mem
  index : s'.index = s.index
  trace : s'.trace = .alloc (p + 4096) l.length :: s.trace

theorem allocFreePages_spec {node n : Nat} (hF : A.Rep s.mem F) (hn : 1 ≤ n)
    (h : A.allocFreePages s n = .ok (node, s')) :
    ∃ p l F', node = p + 4096 ∧ l.length = n ∧ A.Allocated s s' F F' p l := by
  rw [allocFreePages] at h
  cases ha : A.alloc s.mem s.currentCpu n with
  | none => simp [ha] at h
  | some r =>
    obtain ⟨node', m', cpu'⟩ := r
    rw [ha] at h
    obtain ⟨rfl, rfl⟩ : node' = node ∧ _ = s' := by simpa using h
    obtain ⟨p, l, F', rfl, chain, rfl, fresh, rep, rest, frame⟩ := A.alloc_spec hF hn ha
    exact ⟨p, l, F', rfl, rfl, chain, fresh, rep, rest, frame, rfl, rfl⟩

theorem allocFreePages_error {n : Nat} {e : Fault} (h : A.allocFreePages s n = .error e) :
    e = .noPages := by
  rw [allocFreePages] at h
  cases ha : A.alloc s.mem s.currentCpu n with
  | none => simpa [ha, eq_comm] using h
  | some r => simp [ha] at h

/-- A page the allocator does not hold is left as it was. -/
theorem Allocated.keeps (h : A.Allocated s s' F F' p l) (hF : A.Rep s.mem F) {q : Nat}
    (hq : IsPage q) (hqF : q ∉ F) : Set.EqOn s'.mem s.mem (pageBytes q) := fun _ ha =>
  h.frame _ (not_mem_allocatorBytes (A.rep_page hF) hq hqF ha)

end PageAllocator

end Atfs
