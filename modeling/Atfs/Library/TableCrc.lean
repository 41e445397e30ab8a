import Mathlib.Data.List.Basic
import Mathlib.Tactic.Common

/-!
# Checksums by a table

A checksum that takes a word of a table for every byte: the low byte of the checksum and the byte
select the word, and what is left of the checksum is moved down by eight bits. With a table that is
additive the checksum is linear, as a cyclic redundancy check is. Without one it is linear on the
strings of no length but zero.
-/

namespace TableCrc

variable {w : Nat}

/-- Byte by byte. -/
def xorBytes (a b : List (BitVec 8)) : List (BitVec 8) := List.zipWith (· ^^^ ·) a b

variable (T : BitVec 8 → BitVec w)

/-- One byte. -/
def step (c : BitVec w) (b : BitVec 8) : BitVec w := T (c.setWidth 8 ^^^ b) ^^^ c >>> 8

/-- The checksum of some bytes, from the checksum `c` of those before. -/
def run (c : BitVec w) (s : List (BitVec 8)) : BitVec w := s.foldl (step T) c

/-- The words of the table add up as their places do. -/
def Additive : Prop := ∀ i j, T (i ^^^ j) = T i ^^^ T j

variable {T} {c c' : BitVec w} {a b s : List (BitVec 8)}

@[simp] theorem run_nil : run T c [] = c := rfl

@[simp] theorem run_cons (x : BitVec 8) : run T c (x :: s) = run T (step T c x) s := rfl

theorem run_append {s' : List (BitVec 8)} : run T c (s ++ s') = run T (run T c s) s' :=
  List.foldl_append

@[simp] theorem length_xorBytes (h : a.length = b.length) : (xorBytes a b).length = a.length := by
  rw [xorBytes, List.length_zipWith, h, Nat.min_self]

theorem Additive.step_xor (hT : Additive T) (x y : BitVec 8) :
    step T (c ^^^ c') (x ^^^ y) = step T c x ^^^ step T c' y := by
  have hplace : (c ^^^ c').setWidth 8 ^^^ (x ^^^ y) =
      (c.setWidth 8 ^^^ x) ^^^ (c'.setWidth 8 ^^^ y) := by
    rw [BitVec.setWidth_xor]
    ac_rfl
  rw [step, step, step, hplace, hT, BitVec.ushiftRight_xor_distrib]
  ac_rfl

/-- A table that is additive makes the checksum linear. -/
theorem Additive.run_xor (hT : Additive T) (h : a.length = b.length) :
    run T (c ^^^ c') (xorBytes a b) = run T c a ^^^ run T c' b := by
  induction a generalizing c c' b with
  | nil =>
    obtain rfl := List.length_eq_zero_iff.1 h.symm
    rfl
  | cons x a ih =>
    cases b with
    | nil => cases h
    | cons y b =>
      rw [xorBytes, List.zipWith_cons_cons, run_cons, run_cons, run_cons, hT.step_xor]
      exact ih (by simpa using h)

/-- Zeros leave the checksum zero if the first word of the table is. -/
theorem run_zeros (h0 : T 0#8 = 0#w) (n : Nat) : run T 0#w (List.replicate n 0#8) = 0#w := by
  induction n with
  | zero => rfl
  | succ n ih =>
    have hstep : step T 0#w 0#8 = 0#w := by simp [step, h0]
    rw [List.replicate_succ, run_cons, hstep, ih]

/-- Behind zeros the checksum of one byte is a word of the table. -/
theorem run_zeros_append (h0 : T 0#8 = 0#w) (n : Nat) (x : BitVec 8) :
    run T 0#w (List.replicate n 0#8 ++ [x]) = T x := by
  rw [run_append, run_zeros h0, run_cons, run_nil]
  simp [step]

/-- The checksum is linear on the strings of one length, not zero, exactly if the table is
additive. -/
theorem run_xor_iff_additive (h0 : T 0#8 = 0#w) (n : Nat) :
    (∀ a b, a.length = n + 1 → b.length = n + 1 →
      run T 0#w (xorBytes a b) = run T 0#w a ^^^ run T 0#w b) ↔ Additive T := by
  constructor
  · intro h i j
    have hxor : xorBytes (List.replicate n 0#8 ++ [i]) (List.replicate n 0#8 ++ [j]) =
        List.replicate n 0#8 ++ [i ^^^ j] := by
      simp [xorBytes, List.zipWith_append]
    have hlaw := h (List.replicate n 0#8 ++ [i]) (List.replicate n 0#8 ++ [j]) (by simp) (by simp)
    rwa [hxor, run_zeros_append h0, run_zeros_append h0, run_zeros_append h0] at hlaw
  · intro hT a b ha hb
    rw [← hT.run_xor (ha.trans hb.symm), BitVec.xor_self]

end TableCrc
