import Mathlib.Data.List.Chain
import Mathlib.Data.Set.BooleanAlgebra
import Mathlib.Data.Set.Function
import Mathlib.Order.CompletePartialOrder
import Mathlib.Order.Interval.Set.Basic
import Mathlib.Tactic.Ring

/-!
# Byte-addressed memory

Memory is a total map from addresses to bytes. Words are little-endian runs of
bytes, and a record is a base address with named `Field`s at fixed offsets.
Every access is described by the bytes it touches, so that frame facts are
statements about `Set.EqOn` and disjoint intervals.
-/

namespace ByteMemory

/-- A memory gives one byte to every address. -/
abbrev Memory := Nat → UInt8

/-- The little-endian value of the `n` bytes at `a`. -/
def load (m : Memory) (a : Nat) : Nat → Nat
  | 0 => 0
  | n + 1 => (m a).toNat + 256 * load m (a + 1) n

/-- Write `v` as `n` little-endian bytes at `a`; higher bits are dropped. -/
def store (m : Memory) (a : Nat) : Nat → Nat → Memory
  | 0, _ => m
  | n + 1, v => Function.update (store m (a + 1) n (v / 256)) a (UInt8.ofNat v)

/-- Copy `n` bytes found at `from_` in `src` to `dst` in `m`. The source is read
before anything is written. -/
def copy (m : Memory) (dst : Nat) (src : Memory) (from_ n : Nat) : Memory :=
  fun a => if dst ≤ a ∧ a < dst + n then src (from_ + (a - dst)) else m a

/-- Set `n` bytes at `dst` to `b`. -/
def fill (m : Memory) (dst n : Nat) (b : UInt8) : Memory :=
  fun a => if dst ≤ a ∧ a < dst + n then b else m a

/-! ## Words -/

theorem load_lt (m : Memory) (a n : Nat) : load m a n < 256 ^ n := by
  induction n generalizing a with
  | zero => simp [load]
  | succ n ih =>
    have hb : (m a).toNat < 256 := (m a).toNat_lt
    have := ih (a + 1)
    rw [load, pow_succ]
    omega

theorem load_congr {m m' : Memory} {a n : Nat} (h : Set.EqOn m m' (Set.Ico a (a + n))) :
    load m a n = load m' a n := by
  induction n generalizing a with
  | zero => rfl
  | succ n ih =>
    rw [load, load, h ⟨le_refl a, by omega⟩]
    congr 2
    exact ih fun x hx => h ⟨by have := hx.1; omega, by have := hx.2; omega⟩

theorem store_apply_of_outside (m : Memory) {a n v b : Nat} (h : b < a ∨ a + n ≤ b) :
    store m a n v b = m b := by
  induction n generalizing a v with
  | zero => rfl
  | succ n ih =>
    rw [store, Function.update_of_ne (by omega)]
    exact ih (by omega)

theorem load_store_self (m : Memory) (a n v : Nat) :
    load (store m a n v) a n = v % 256 ^ n := by
  induction n generalizing a v with
  | zero => simp [load, Nat.mod_one]
  | succ n ih =>
    have tail : load (store m a (n + 1) v) (a + 1) n = load (store m (a + 1) n (v / 256))
        (a + 1) n :=
      load_congr fun x hx => Function.update_of_ne (by have := hx.1; omega) _ _
    have head : (store m a (n + 1) v a).toNat = v % 256 := by
      rw [store, Function.update_self, UInt8.toNat_ofNat']
    rw [load, tail, ih, head, pow_succ', Nat.mod_mul]

/-- Storing what stands there changes nothing. -/
theorem store_load (m : Memory) (a n : Nat) : store m a n (load m a n) = m := by
  induction n generalizing a with
  | zero => rfl
  | succ n ih =>
    have hb : (m a).toNat < 256 := (m a).toNat_lt
    have hdiv : ((m a).toNat + 256 * load m (a + 1) n) / 256 = load m (a + 1) n := by omega
    have hbyte : UInt8.ofNat ((m a).toNat + 256 * load m (a + 1) n) = m a := by
      rw [← UInt8.toNat_inj, UInt8.toNat_ofNat']
      omega
    rw [load, store, hdiv, ih, hbyte, Function.update_eq_self]

theorem load_store_of_disjoint (m : Memory) {a n b k v : Nat} (h : a + n ≤ b ∨ b + k ≤ a) :
    load (store m b k v) a n = load m a n :=
  load_congr fun x hx => store_apply_of_outside m (by
    have := hx.1; have := hx.2; omega)

/-- A word is read off its bytes. -/
theorem load_eq_of_bytes {m : Memory} {a n v : Nat}
    (h : ∀ j < n, m (a + j) = UInt8.ofNat (v / 256 ^ j)) : load m a n = v % 256 ^ n := by
  induction n generalizing a v with
  | zero => simp [load, Nat.mod_one]
  | succ n ih =>
    have head : (m a).toNat = v % 256 := by
      have := h 0 (by omega)
      rw [Nat.add_zero, pow_zero, Nat.div_one] at this
      rw [this, UInt8.toNat_ofNat']
    have tail : load m (a + 1) n = v / 256 % 256 ^ n := by
      refine ih fun j hj => ?_
      have := h (j + 1) (by omega)
      rw [Nat.add_right_comm, Nat.add_assoc, this, pow_succ', Nat.div_div_eq_div_mul]
    rw [load, head, tail, pow_succ', Nat.mod_mul]

/-- Equal words have equal bytes. -/
theorem eqOn_of_load_eq {m m' : Memory} {a n : Nat} (h : load m a n = load m' a n) :
    Set.EqOn m m' (Set.Ico a (a + n)) := by
  induction n generalizing a with
  | zero =>
    intro x hx
    rw [Set.mem_Ico] at hx
    omega
  | succ n ih =>
    have hb : (m a).toNat < 256 := (m a).toNat_lt
    have hb' : (m' a).toNat < 256 := (m' a).toNat_lt
    rw [load, load] at h
    have hhead : m a = m' a := UInt8.toNat_inj.1 (by omega)
    have htail : load m (a + 1) n = load m' (a + 1) n := by omega
    intro x hx
    rw [Set.mem_Ico] at hx
    by_cases hxa : x = a
    · rw [hxa, hhead]
    · exact ih htail ⟨by omega, by omega⟩

/-- A store changes nothing outside its bytes. -/
theorem eqOn_store (m : Memory) (a n v : Nat) :
    Set.EqOn (store m a n v) m (Set.Ico a (a + n))ᶜ := fun x hx =>
  store_apply_of_outside m (by simp only [Set.mem_compl_iff, Set.mem_Ico] at hx; omega)

/-! ## Block operations -/

theorem copy_apply_of_inside (m src : Memory) {dst from_ n a : Nat} (h : dst ≤ a)
    (h' : a < dst + n) :
    copy m dst src from_ n a = src (from_ + (a - dst)) := if_pos ⟨h, h'⟩

theorem copy_apply_of_outside (m src : Memory) {dst from_ n a : Nat}
    (h : a < dst ∨ dst + n ≤ a) : copy m dst src from_ n a = m a := if_neg (by omega)

theorem fill_apply_of_inside (m : Memory) {dst n a : Nat} {b : UInt8} (h : dst ≤ a)
    (h' : a < dst + n) : fill m dst n b a = b := if_pos ⟨h, h'⟩

theorem fill_apply_of_outside (m : Memory) {dst n a : Nat} {b : UInt8}
    (h : a < dst ∨ dst + n ≤ a) : fill m dst n b a = m a := if_neg (by omega)

theorem load_copy_of_disjoint (m src : Memory) {a n dst from_ k : Nat}
    (h : a + n ≤ dst ∨ dst + k ≤ a) : load (copy m dst src from_ k) a n = load m a n :=
  load_congr fun x hx => copy_apply_of_outside m src (by
    have := hx.1; have := hx.2; omega)

theorem load_fill_of_disjoint (m : Memory) {a n dst k : Nat} {b : UInt8}
    (h : a + n ≤ dst ∨ dst + k ≤ a) : load (fill m dst k b) a n = load m a n :=
  load_congr fun x hx => fill_apply_of_outside m (by
    have := hx.1; have := hx.2; omega)

/-- A word inside a zeroed block reads as zero. -/
theorem load_fill_zero (m : Memory) {a n dst k : Nat} (h : dst ≤ a) (h' : a + n ≤ dst + k) :
    load (fill m dst k 0) a n = 0 := by
  induction n generalizing a with
  | zero => rfl
  | succ n ih =>
    rw [load, fill_apply_of_inside m h (by omega), ih (by omega) (by omega)]
    rfl

/-! ## Record fields -/

/-- A field of a record of `n` bytes: its offset from the base address and its width. -/
structure Field (n : Nat) where
  off : Nat
  size : Nat
  fits : off + size ≤ n

namespace Field

variable {n k : Nat} (f : Field n) (g : Field k) (m : Memory)

def get (p : Nat) : Nat := load m (p + f.off) f.size

def set (p v : Nat) : Memory := store m (p + f.off) f.size v

/-- The bytes the field occupies in the record at `p`. -/
def bytes (p : Nat) : Set Nat := Set.Ico (p + f.off) (p + f.off + f.size)

theorem get_lt (p : Nat) : f.get m p < 256 ^ f.size := load_lt _ _ _

theorem get_set_self (p v : Nat) : f.get (f.set m p v) p = v % 256 ^ f.size :=
  load_store_self _ _ _ _

theorem get_set_self_of_lt {p v : Nat} (h : v < 256 ^ f.size) : f.get (f.set m p v) p = v := by
  rw [get_set_self, Nat.mod_eq_of_lt h]

theorem set_get (p : Nat) : f.set m p (f.get m p) = m := store_load _ _ _

/-- Records that do not overlap keep each other's fields. -/
theorem get_set_of_apart {p q v : Nat} (h : p + n ≤ q ∨ q + k ≤ p) :
    f.get (g.set m q v) p = f.get m p :=
  load_store_of_disjoint m (by have := f.fits; have := g.fits; omega)

theorem get_set_of_disjoint {p q v : Nat}
    (h : p + f.off + f.size ≤ q + g.off ∨ q + g.off + g.size ≤ p + f.off) :
    f.get (g.set m q v) p = f.get m p := load_store_of_disjoint m h

theorem set_apply_of_outside {p v a : Nat} (h : a < p + f.off ∨ p + f.off + f.size ≤ a) :
    f.set m p v a = m a := store_apply_of_outside m h

variable {f m}

theorem get_congr {m' : Memory} {p : Nat} (h : Set.EqOn m m' (f.bytes p)) :
    f.get m p = f.get m' p := load_congr h

theorem eqOn_of_get_eq {m' : Memory} {p : Nat} (h : f.get m p = f.get m' p) :
    Set.EqOn m m' (f.bytes p) := eqOn_of_load_eq h

theorem eqOn_set (p v : Nat) : Set.EqOn (f.set m p v) m (f.bytes p)ᶜ := eqOn_store m _ _ v

theorem get_copy_of_disjoint {src : Memory} {p dst from_ c : Nat}
    (h : p + f.off + f.size ≤ dst ∨ dst + c ≤ p + f.off) :
    f.get (copy m dst src from_ c) p = f.get m p := load_copy_of_disjoint m src h

theorem get_fill_of_disjoint {p dst c : Nat} {b : UInt8}
    (h : p + f.off + f.size ≤ dst ∨ dst + c ≤ p + f.off) :
    f.get (fill m dst c b) p = f.get m p := load_fill_of_disjoint m h

end Field

/-! ## Frames -/

/-- From `m` to `m'` nothing outside `W` has changed. -/
def ChangesOnly (W : Set Nat) (m m' : Memory) : Prop := ∀ a, a ∉ W → m' a = m a

namespace ChangesOnly

variable {V W : Set Nat} {m m' m'' : Memory}

protected theorem refl (W : Set Nat) (m : Memory) : ChangesOnly W m m := fun _ _ => rfl

theorem mono (h : ChangesOnly V m m') (hVW : V ⊆ W) : ChangesOnly W m m' :=
  fun a ha => h a fun hV => ha (hVW hV)

theorem trans (h : ChangesOnly W m m') (h' : ChangesOnly W m' m'') : ChangesOnly W m m'' :=
  fun a ha => (h' a ha).trans (h a ha)

theorem eqOn (h : ChangesOnly W m m') {B : Set Nat} (hB : Disjoint W B) : Set.EqOn m' m B :=
  fun _ ha => h _ fun hW => Set.disjoint_left.1 hB hW ha

/-- Memories of which each changes only `W` from the one before. -/
theorem of_isChain {ms : List Memory} (h : List.IsChain (ChangesOnly W) (m :: ms)) :
    ∀ m' ∈ ms, ChangesOnly W m m' := by
  induction ms generalizing m with
  | nil => simp
  | cons m₁ ms ih =>
    obtain ⟨hhead, hrest⟩ := List.isChain_cons_cons.1 h
    intro m' hm'
    rcases List.mem_cons.1 hm' with rfl | hm'
    · exact hhead
    · exact hhead.trans (ih hrest m' hm')

/-- A field outside the changed bytes keeps its value. -/
theorem get (h : ChangesOnly W m m') {n : Nat} (f : Field n) {p : Nat}
    (hp : Disjoint W (f.bytes p)) : f.get m' p = f.get m p :=
  Field.get_congr (h.eqOn hp)

end ChangesOnly

section Changes

variable {n : Nat} (m src : Memory)

theorem Field.changesOnly_set (f : Field n) (p v : Nat) :
    ChangesOnly (f.bytes p) m (f.set m p v) := fun _ ha => Field.eqOn_set p v ha

/-- A field at or above `a` changes nothing below. -/
theorem Field.changesOnly_set_above (f : Field n) {p a : Nat} (v : Nat) (h : a ≤ p + f.off) :
    ChangesOnly (Set.Ici a) m (f.set m p v) :=
  (f.changesOnly_set m p v).mono fun _ hb => h.trans hb.1

theorem changesOnly_fill_above {dst a : Nat} (c : Nat) (b : UInt8) (h : a ≤ dst) :
    ChangesOnly (Set.Ici a) m (fill m dst c b) := fun x hx =>
  fill_apply_of_outside m (by simp only [Set.mem_Ici] at hx; omega)

theorem changesOnly_copy (dst from_ c : Nat) :
    ChangesOnly (Set.Ico dst (dst + c)) m (copy m dst src from_ c) := fun a ha =>
  copy_apply_of_outside m src (by simp only [Set.mem_Ico] at ha; omega)

theorem changesOnly_fill (dst c : Nat) (b : UInt8) :
    ChangesOnly (Set.Ico dst (dst + c)) m (fill m dst c b) := fun a ha =>
  fill_apply_of_outside m (by simp only [Set.mem_Ico] at ha; omega)

end Changes

end ByteMemory
