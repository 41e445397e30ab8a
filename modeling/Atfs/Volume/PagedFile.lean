import Atfs.Io.Calls
import Atfs.Library.LabelledRun

/-!
# Files as their users see them

To its users a file is a position, a size and bytes, on pages that it has or has not. A write puts
its bytes in place and keeps the pages it does not touch; what else stands on its first and its last
page is kept only in front of it. Users would rather have `FileSpec`, where every byte is the one
last written. As long as every write is careful they cannot tell the difference.
-/

namespace Atfs

open ByteMemory LabelledRun

/-- What a call on a file returns, with the user's buffer if it fills one. -/
inductive Answer
  | value (ret : Int)
  | bytes (ret : Int) (buf : Memory)

/-! ## What the code keeps of a file -/

/-- Pages that a file does not have read as zeroes. -/
@[ext] structure PagedFile where
  pos : Nat
  size : Nat
  held : Set Nat
  byte : Nat → UInt8
  hole : ∀ x, x / 4096 ∉ held → byte x = 0

namespace PagedFile

/-- A file without pages. -/
def empty : PagedFile := ⟨0, 0, ∅, fun _ => 0, fun _ _ => rfl⟩

def view (f : PagedFile) : FileView := ⟨f.pos, f.size⟩

def read (f : PagedFile) (buf : Memory) (cnt offset : Nat) : Answer :=
  if offset + cnt ≤ f.size then .bytes cnt fun i => if i < cnt then f.byte (offset + i) else buf i
  else .bytes (-1) buf

/-- `cnt` bytes at `offset` have been overwritten. Of the other bytes on the pages that are new for
that, only those in front of at least one written byte are the old ones. -/
structure Overwritten (f : PagedFile) (buf : Memory) (cnt offset : Nat)
    (f' : PagedFile) : Prop where
  held : ∀ k, k ∈ f'.held ↔ k ∈ f.held ∨ offset / 4096 ≤ k ∧ k * 4096 < offset + cnt
  inside : ∀ x, offset ≤ x → x < offset + cnt → f'.byte x = buf (x - offset)
  front : 1 ≤ cnt → offset / 4096 ∈ f.held → ∀ x < offset, x / 4096 = offset / 4096 →
    f'.byte x = f.byte x
  outside : ∀ x, (x / 4096 < offset / 4096 ∨ offset + cnt ≤ x / 4096 * 4096) → f'.byte x = f.byte x

/-- The position and the size do not count. -/
theorem Overwritten.info {f f' : PagedFile} {buf : Memory} {cnt offset : Nat}
    (h : f.Overwritten buf cnt offset f') (p n : Nat) :
    f.Overwritten buf cnt offset { f' with pos := p, size := n } :=
  ⟨h.held, h.inside, h.front, h.outside⟩

/-- One call on the file. A positional write takes the size from the position of the file. -/
inductive Step : PagedFile → Call × Answer → PagedFile → Prop
  | write {f f' : PagedFile} {buf : Memory} {cnt : Nat} (wrote : f.Overwritten buf cnt f.pos f')
      (pos : f'.pos = f.pos + cnt) (size : f'.size = max f.size (f.pos + cnt)) :
      Step f (.write buf cnt, .value cnt) f'
  | pwrite {f f' : PagedFile} {buf : Memory} {cnt offset : Nat}
      (wrote : f.Overwritten buf cnt offset f') (pos : f'.pos = f.pos)
      (size : f'.size = max f.size (addU64 f.pos cnt)) :
      Step f (.pwrite buf cnt offset, .value cnt) f'
  | read {f : PagedFile} {buf : Memory} {cnt : Nat} :
      Step f (.read buf cnt, f.read buf cnt f.pos) { f with pos := f.pos + cnt }
  | pread {f : PagedFile} {buf : Memory} {cnt offset : Nat} :
      Step f (.pread buf cnt offset, f.read buf cnt offset) f
  | seek {f : PagedFile} {offset : Int} {whence : Whence} {p : Nat}
      (target : f.view.target offset whence = some (p : Int)) :
      Step f (.lseek offset whence, .value p) { f with pos := p }
  | seekOther {f : PagedFile} {offset : Int} {whence : Whence}
      (target : f.view.target offset whence = none) :
      Step f (.lseek offset whence, .value 22) f

end PagedFile

/-! ## What a user expects of a file -/

/-- The position, and all that was written, the newest first. -/
structure FileSpec where
  pos : Nat
  writes : List WriteCall

namespace FileSpec

def empty : FileSpec := ⟨0, []⟩

def view (g : FileSpec) : FileView := ⟨g.pos, fileEnd g.writes⟩

def read (g : FileSpec) (buf : Memory) (cnt offset : Nat) : Answer :=
  if offset + cnt ≤ fileEnd g.writes then
    .bytes cnt fun i => if i < cnt then content g.writes (offset + i) else buf i
  else .bytes (-1) buf

def answer (g : FileSpec) : Call → Answer
  | .write _ cnt => .value cnt
  | .pwrite _ cnt _ => .value cnt
  | .read buf cnt => g.read buf cnt g.pos
  | .pread buf cnt offset => g.read buf cnt offset
  | .lseek offset whence => .value ((g.view.target offset whence).getD 22)

def step (g : FileSpec) : Call → FileSpec
  | .write buf cnt => ⟨g.pos + cnt, ⟨buf, cnt, g.pos⟩ :: g.writes⟩
  | .pwrite buf cnt offset => ⟨g.pos, ⟨buf, cnt, offset⟩ :: g.writes⟩
  | .read _ cnt => ⟨g.pos + cnt, g.writes⟩
  | .pread _ _ _ => g
  | .lseek offset whence => ⟨((g.view.target offset whence).getD g.pos).toNat, g.writes⟩

/-- A write is careful, and a positional one ends where it makes the same size as one at the
position of the file. -/
def CarefulCall (g : FileSpec) : Call → Prop
  | .write buf cnt => Careful g.writes ⟨buf, cnt, g.pos⟩
  | .pwrite buf cnt offset => Careful g.writes ⟨buf, cnt, offset⟩ ∧ g.view.SizedAlike cnt offset
  | _ => True

end FileSpec

/-- The file is what a user expects. -/
structure PagedFile.Shows (f : PagedFile) (g : FileSpec) : Prop where
  pos : f.pos = g.pos
  size : f.size = fileEnd g.writes
  held : ∀ k, k ∈ f.held ↔ Touched g.writes k
  bytes : ∀ x < fileEnd g.writes, f.byte x = content g.writes x

section Careful

variable {f f' : PagedFile} {g : FileSpec} {buf : Memory} {cnt offset : Nat} {c : Call} {a : Answer}

theorem PagedFile.Shows.view_eq (h : f.Shows g) : f.view = g.view := FileView.ext h.pos h.size

theorem PagedFile.Shows.read_eq (h : f.Shows g) : f.read buf cnt offset =
    g.read buf cnt offset := by
  rw [PagedFile.read, FileSpec.read, h.size]
  split_ifs with hsize
  · refine congrArg (Answer.bytes cnt) (funext fun i => ?_)
    split_ifs with hi
    · exact h.bytes _ (by omega)
    · rfl
  · rfl

/-- Behind an end at a page boundary the file has no bytes. -/
theorem PagedFile.Shows.byte_of_end_le (h : f.Shows g) {x : Nat} (hx : fileEnd g.writes ≤ x)
    (hend : fileEnd g.writes % 4096 = 0) : f.byte x = 0 := by
  refine f.hole x fun hheld => ?_
  have := ((h.held _).1 hheld).lt
  omega

/-- A careful write changes no byte below the end of the file that it does not write. -/
theorem PagedFile.Shows.byte_around (h : f.Shows g) (hover : f.Overwritten buf cnt offset f')
    (hw : Careful g.writes ⟨buf, cnt, offset⟩) {x : Nat} (hcov : ¬ (offset ≤ x ∧ x < offset + cnt))
    (hx : x < max (fileEnd g.writes) (offset + cnt)) : f'.byte x = content g.writes x := by
  obtain ⟨hpos, -, hfront, hback, hgap⟩ := hw
  simp only at hpos hfront hback hgap
  by_cases hout : x / 4096 < offset / 4096 ∨ offset + cnt ≤ x / 4096 * 4096
  · rw [hover.outside x hout]
    by_cases hend : x < fileEnd g.writes
    · exact h.bytes x hend
    · rw [h.byte_of_end_le (by omega) (by omega), content_of_end_le (by omega)]
  · by_cases hfirst : x < offset
    · have htouched : Touched g.writes (offset / 4096) := hfront.resolve_left (by omega)
      have := htouched.lt
      rw [hover.front hpos ((h.held _).2 htouched) x hfirst (by omega)]
      exact h.bytes x (by omega)
    · -- a careful write leaves nothing of the file behind it in its last page
      omega

/-- A careful write, once the size is set behind it. -/
theorem PagedFile.Shows.write {p : Nat} (h : f.Shows g) (hover : f.Overwritten buf cnt offset f')
    (hw : Careful g.writes ⟨buf, cnt, offset⟩) (hpos : f'.pos = p)
    (hsize : f'.size = max f.size (offset + cnt)) :
    f'.Shows ⟨p, ⟨buf, cnt, offset⟩ :: g.writes⟩ where
  pos := hpos
  size := by rw [hsize, h.size, fileEnd]
  held k := by
    rw [hover.held, h.held, touched_cons, or_comm]
  bytes x hx := by
    rw [content]
    split_ifs with hcov
    · exact hover.inside x hcov.1 hcov.2
    · exact h.byte_around hover hw hcov hx

/-- A careful call is answered as a user expects. -/
theorem PagedFile.Shows.step (h : f.Shows g) (hstep : f.Step (c, a) f')
    (hcareful : g.CarefulCall c) :
    a = g.answer c ∧ f'.Shows (g.step c) := by
  cases hstep with
  | write hover hpos hsize =>
    rw [h.pos] at hover hpos hsize
    exact ⟨rfl, h.write hover hcareful hpos hsize⟩
  | @pwrite _ buf cnt offset hover hpos hsize =>
    obtain ⟨hw, halike⟩ := hcareful
    have hend : max (fileEnd g.writes) (addU64 g.pos cnt) = max (fileEnd g.writes) (offset + cnt) :=
      halike
    refine ⟨rfl, h.write hover hw (hpos.trans h.pos) ?_⟩
    rw [hsize, h.pos, h.size, hend]
  | read => exact ⟨h.pos ▸ h.read_eq, { h with pos := congrArg (· + _) h.pos }⟩
  | pread => exact ⟨h.read_eq, h⟩
  | seek htarget =>
    rw [h.view_eq] at htarget
    refine ⟨?_, { h with pos := ?_ }⟩
    · rw [FileSpec.answer, htarget]
      rfl
    · simp [FileSpec.step, htarget]
  | seekOther htarget =>
    rw [h.view_eq] at htarget
    refine ⟨?_, { h with pos := ?_ }⟩
    · rw [FileSpec.answer, htarget]
      rfl
    · simp [FileSpec.step, htarget, h.pos]

end Careful

end Atfs
