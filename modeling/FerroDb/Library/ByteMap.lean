import Mathlib.Logic.Function.Basic
import Mathlib.Tactic

/-!
# Bytes by position, and their bits

A block of bytes as a function of the position, the bits of each byte, and a number of four bytes
at the front, least significant byte first.
-/

namespace FerroDb.Library

open Function (update update_of_ne update_self)

abbrev ByteMap := ℕ → BitVec 8

namespace ByteMap

variable {p : ByteMap} {i j a b n : ℕ}

def zeros : ByteMap := fun _ => 0

/-- Bit `j` of the byte at `i`. -/
def bit (p : ByteMap) (i j : ℕ) : Bool := (p i).getLsbD j

def setBit (p : ByteMap) (i j : ℕ) : ByteMap := update p i (p i ||| (1#8) <<< j)

def clearBit (p : ByteMap) (i j : ℕ) : ByteMap := update p i (p i &&& ~~~((1#8) <<< j))

@[simp] lemma bit_zeros : bit zeros i j = false := by simp [bit, zeros]

lemma getLsbD_one_shiftLeft (hj : j < 8) : ((1#8) <<< j).getLsbD b = decide (b = j) := by
  rw [BitVec.getLsbD_shiftLeft]
  by_cases hb : b = j
  · simp [hb, hj]
  · simp only [hb]
    by_cases hlt : b < j
    · simp [hlt]
    · simp
      omega

/-- Masking a byte with one bit tells whether the bit is clear. -/
lemma and_one_shiftLeft_eq_zero (hj : j < 8) : p i &&& ((1#8) <<< j) = 0 ↔ bit p i j = false := by
  constructor
  · intro h
    have hbit := congrArg (·.getLsbD j) h
    simpa [bit, getLsbD_one_shiftLeft hj] using hbit
  · intro h
    refine BitVec.eq_of_getLsbD_eq fun b _ => ?_
    rw [BitVec.getLsbD_and, getLsbD_one_shiftLeft hj]
    by_cases hb : b = j
    · subst hb
      simpa [bit] using h
    · simp [hb]

lemma bit_setBit (hj : j < 8) :
    bit (setBit p i j) a b = (decide (a = i ∧ b = j) || bit p a b) := by
  unfold bit setBit
  by_cases ha : a = i
  · subst ha
    rw [update_self, BitVec.getLsbD_or]
    rw [getLsbD_one_shiftLeft hj]
    simp [Bool.or_comm]
  · simp [ha]

lemma bit_clearBit (hb : b < 8) (hj : j < 8) :
    bit (clearBit p i j) a b = (bit p a b && !decide (a = i ∧ b = j)) := by
  unfold bit clearBit
  by_cases ha : a = i
  · subst ha
    rw [update_self, BitVec.getLsbD_and, BitVec.getLsbD_not]
    rw [getLsbD_one_shiftLeft hj]
    simp [hb]
  · simp [ha]

/-- The number in the first four bytes. -/
def u32 (p : ByteMap) : ℕ :=
  (p 0).toNat + 2 ^ 8 * (p 1).toNat + 2 ^ 16 * (p 2).toNat + 2 ^ 24 * (p 3).toNat

def putU32 (p : ByteMap) (n : ℕ) : ByteMap := fun i =>
  if i < 4 then BitVec.ofNat 8 (n / 2 ^ (8 * i)) else p i

@[simp] lemma u32_zeros : u32 zeros = 0 := by simp [u32, zeros]

lemma u32_putU32 (hn : n < 2 ^ 32) : u32 (putU32 p n) = n := by
  simp only [u32, putU32, BitVec.toNat_ofNat, Nat.reduceLT, if_true]
  omega

lemma u32_congr {q : ByteMap} (h : ∀ i < 4, p i = q i) : u32 p = u32 q := by
  simp [u32, h]

lemma bit_putU32 (hi : 4 ≤ i) : bit (putU32 p n) i j = bit p i j := by
  simp [bit, putU32, Nat.not_lt.mpr hi]

lemma u32_setBit (hi : 4 ≤ i) : u32 (setBit p i j) = u32 p :=
  u32_congr fun k hk => update_of_ne (by omega) _ _

lemma u32_clearBit (hi : 4 ≤ i) : u32 (clearBit p i j) = u32 p :=
  u32_congr fun k hk => update_of_ne (by omega) _ _

end ByteMap

end FerroDb.Library
