import Atfs.Io.Use
import Atfs.Volume.FileRuns

/-!
# The tables under calls

No call on a file and no collection writes to the inode tables. The logs say so when they are read
with an allocator that makes the same calls and takes its pages for held only while the tables are
unchanged.
-/

namespace Atfs

open ByteMemory LinkedChain

/-! ## Allocators that make the same calls -/

/-- The two allocators hand out and take back pages alike. -/
structure SameCalls (A B : PageAllocator) : Prop where
  alloc : A.alloc = B.alloc
  free : A.free = B.free

namespace SameCalls

variable {A B : PageAllocator} (h : SameCalls A B)

include h

theorem allocFreePages : A.allocFreePages = B.allocFreePages := by
  funext s n
  rw [PageAllocator.allocFreePages, PageAllocator.allocFreePages, h.alloc]

theorem freePages : A.freePages = B.freePages := by
  funext s node n
  rw [PageAllocator.freePages, PageAllocator.freePages, h.free]

theorem getLogEntry : getLogEntry A = getLogEntry B := by
  funext s logTail
  simp only [Atfs.getLogEntry, h.allocFreePages]

theorem writeLoop (inode : Nat) (buf : Memory) (fuel : Nat) (v : WriteVars) (s : State) :
    writeLoop A inode buf fuel v s = writeLoop B inode buf fuel v s := by
  induction fuel generalizing v s with
  | zero => rfl
  | succ fuel ih =>
    have hchunk : writeChunk A = writeChunk B := by
      funext inode buf v s
      simp only [writeChunk, h.allocFreePages, h.getLogEntry]
    rw [Atfs.writeLoop, Atfs.writeLoop, hchunk]
    simp only [ih]

theorem answerCall (R : RadixTree) (inode : Nat) (s : State) (c : Call) :
    answerCall A R inode s c = answerCall B R inode s c := by
  have hwrite : nvmioWrite A R = nvmioWrite B R := by
    funext s inode buf cnt fileOff
    simp only [nvmioWrite, h.writeLoop]
  cases c with
  | write buf cnt => rw [Atfs.answerCall, Atfs.answerCall, atfswrite, atfswrite, hwrite]
  | pwrite buf cnt offset => rw [Atfs.answerCall, Atfs.answerCall, atfspwrite, atfspwrite, hwrite]
  | read => rfl
  | pread => rfl
  | lseek => rfl

theorem gcPages (inode logEntry fuel : Nat) (p : GcPos) (g : GcVars) (s : State) :
    gcPages A inode logEntry fuel p g s = gcPages B inode logEntry fuel p g s := by
  induction fuel generalizing p g s with
  | zero => rfl
  | succ fuel ih =>
    have hround : gcRound A = gcRound B := by
      funext inode logEntry p g s
      simp only [gcRound, keepRun, h.getLogEntry]
    rw [Atfs.gcPages, Atfs.gcPages, hround]
    simp only [ih]

theorem gcEntries (inode page i : Nat) (g : GcVars) (s : State) :
    gcEntries A inode page i g s = gcEntries B inode page i g s := by
  induction i with
  | zero => rfl
  | succ i ih =>
    rw [Atfs.gcEntries, Atfs.gcEntries, ih]
    simp only [gcEntry, h.gcPages]

theorem gcLoop (inode pageTail fuel pageHead prevPage : Nat) (s : State) :
    gcLoop A inode pageTail fuel pageHead prevPage s =
      gcLoop B inode pageTail fuel pageHead prevPage s := by
  induction fuel generalizing pageHead prevPage s with
  | zero => rfl
  | succ fuel ih =>
    have hblock : gcLogBlock A = gcLogBlock B := by
      funext inode pageNode s
      simp only [gcLogBlock, h.gcEntries, h.freePages]
    rw [Atfs.gcLoop, Atfs.gcLoop, hblock]
    simp only [ih]

theorem gcInode (inode fuel : Nat) (s : State) : gcInode A inode fuel s = gcInode B inode fuel s :=
  h.gcLoop _ _ _ _ _ _

end SameCalls

/-! ## The guard -/

/-- The page allocator has nothing to do with the inode tables. -/
structure TablesApart (A : PageAllocator) : Prop extends KeepsTables A where
  free : ∀ {m F cpu p l}, A.Rep m F → PageChain m p l → l ≠ [] → (∀ q ∈ l, q ∉ F) →
    Set.EqOn (A.free m cpu (p + 4096) l.length).1 m tableBytes

section Guard

variable {A : PageAllocator} {m₀ m : Memory} {F : Set Nat} {cpu p : Nat} {l : List Nat}

theorem TablesRep.released (hA : TablesApart A) (h : TablesRep A m₀ m F) (hchain : PageChain m p l)
    (hne : l ≠ []) (hfree : ∀ q ∈ l, q ∉ F) :
    ∃ F', TablesRep A m₀ (A.free m cpu (p + 4096) l.length).1 F' ∧ (∀ q ∈ F', q ∈ F ∨ q ∈ l) ∧
      ChangesOnly (allocatorBytes (F ∪ {q | q ∈ l})) m (A.free m cpu (p + 4096) l.length).1 := by
  have hspec : ∃ F', A.Rep (A.free m cpu (p + 4096) l.length).1 F' ∧ (∀ q ∈ F', q ∈ F ∨ q ∈ l) ∧
      ChangesOnly (allocatorBytes (F ∪ {q | q ∈ l})) m (A.free m cpu (p + 4096) l.length).1 :=
    A.free_spec h.1 hchain hne hfree
  obtain ⟨F', hrep, hsub, hframe⟩ := hspec
  exact ⟨F', ⟨hrep, (hA.free h.1 hchain hne hfree).trans h.2⟩, hsub, hframe⟩

/-- The allocator, which holds its pages as long as the inode tables are those of `m₀`. -/
def PageAllocator.guarded (A : PageAllocator) (hA : TablesApart A) (m₀ : Memory) :
    PageAllocator where
  alloc := A.alloc
  free := A.free
  Rep := TablesRep A m₀
  rep_page := TablesRep.page
  rep_congr := TablesRep.congr
  alloc_spec := TablesRep.alloc hA.toKeepsTables
  free_spec := TablesRep.released hA

theorem PageAllocator.guarded_sameCalls (A : PageAllocator) (hA : TablesApart A) (m₀ : Memory) :
    SameCalls A (A.guarded hA m₀) := ⟨rfl, rfl⟩

end Guard

namespace Volume

section Tables

variable {A : PageAllocator} {R : RadixTree} {F : Set Nat} {logs : Nat → FileLog}
  {v : Volume} {s : State} {x : Nat}

theorem Sound.guarded (hA : TablesApart A) (h : v.Sound A F logs) :
    v.Sound (A.guarded hA v.state.mem) F logs where
  rep := ⟨h.rep, Set.eqOn_refl _ _⟩
  log x hx := by
    have hlog := h.log x hx
    exact ⟨{ hlog.holds with rep := ⟨hlog.holds.rep, Set.eqOn_refl _ _⟩ }, hlog.log, hlog.tail,
      hlog.inodeIn, hlog.inUse, hlog.apart⟩
  joined := h.joined
  home := h.home
  homes := h.homes
  disjoint := h.disjoint
  apart := h.apart

theorem Filed.guarded (hA : TablesApart A) (h : v.Filed A F logs) :
    v.Filed (A.guarded hA v.state.mem) F logs := ⟨h.sound.guarded hA, h.indexed, h.unindexed⟩

/-- A call on a file leaves the tables. -/
theorem Filed.call_tables {c : Call} {a : Answer} (hA : TablesApart A) (h : v.Filed A F logs)
    (hx : x ∈ v.files) (hfit : (viewOf v.state.mem x).Fits c)
    (hrun : answerCall A R x v.state c = .ok (a, s)) :
    Set.EqOn s.mem v.state.mem tableBytes := by
  rw [(A.guarded_sameCalls hA v.state.mem).answerCall] at hrun
  obtain ⟨F', logs', h'⟩ := ((h.guarded hA).call hx hfit hrun).filed
  exact h'.sound.rep.2

/-- A collection leaves the tables. -/
theorem Sound.gc_tables {fuel : Nat} (hA : TablesApart A) (h : v.Sound A F logs) (hx : x ∈ v.files)
    (hgc : gcInode A x fuel v.state = .ok s) : Set.EqOn s.mem v.state.mem tableBytes := by
  rw [(A.guarded_sameCalls hA v.state.mem).gcInode] at hgc
  obtain ⟨F', logs', h'⟩ := (h.guarded hA).gc hx hgc
  exact h'.rep.2

end Tables

end Volume

end Atfs
