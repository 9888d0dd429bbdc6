import Mathlib

/-!
# Little endian words in a byte memory

A memory is a function from offsets to bytes. A word of 32 bits lies in four of them.
-/

namespace Kolibri.Bytes

open BitVec

variable (mem : Nat → BitVec 8) (off : Nat)

def readU32 : BitVec 32 :=
  mem (off + 3) ++ mem (off + 2) ++ mem (off + 1) ++ mem off

def readU16 : BitVec 16 := mem (off + 1) ++ mem off

def writeU32 (word : BitVec 32) : Nat → BitVec 8 :=
  fun i => if off ≤ i ∧ i < off + 4 then word.extractLsb' (8 * (i - off)) 8 else mem i

def writeU16 (word : BitVec 16) : Nat → BitVec 8 :=
  fun i => if off ≤ i ∧ i < off + 2 then word.extractLsb' (8 * (i - off)) 8 else mem i

theorem readU32_bit (off j : Nat) (hj : j < 32) :
    (readU32 mem off).getLsbD j = (mem (off + j / 8)).getLsbD (j % 8) := by
  have hcase : j / 8 = 0 ∨ j / 8 = 1 ∨ j / 8 = 2 ∨ j / 8 = 3 := by omega
  simp only [readU32, getLsbD_append]
  rcases hcase with h | h | h | h
  · rw [if_pos (by omega), h, show j % 8 = j by omega, Nat.add_zero]
  · rw [if_neg (by omega), if_pos (by omega), h, show j % 8 = j - 8 by omega]
  · rw [if_neg (by omega), if_neg (by omega), if_pos (by omega), h, show j % 8 = j - 8 - 8 by omega]
  · rw [if_neg (by omega), if_neg (by omega), if_neg (by omega), h, show j % 8 = j - 8 - 8 - 8 by omega]

theorem writeU32_bit (w : BitVec 32) (p : Nat) :
    (writeU32 mem off w (p / 8)).getLsbD (p % 8) = if 8 * off ≤ p ∧ p < 8 * off + 32 then w.getLsbD (p - 8 * off)
      else (mem (p / 8)).getLsbD (p % 8) := by
  unfold writeU32
  by_cases h : 8 * off ≤ p ∧ p < 8 * off + 32
  · rw [if_pos (by omega), if_pos h, getLsbD_extractLsb', show 8 * (p / 8 - off) + p % 8 = p - 8 * off by omega]
    simp [show p % 8 < 8 by omega]
  · rw [if_neg (by omega), if_neg h]

theorem readU16_bit (off j : Nat) (hj : j < 16) :
    (readU16 mem off).getLsbD j = (mem (off + j / 8)).getLsbD (j % 8) := by
  have hcase : j / 8 = 0 ∨ j / 8 = 1 := by omega
  simp only [readU16, getLsbD_append]
  rcases hcase with h | h
  · rw [if_pos (by omega), h, show j % 8 = j by omega, Nat.add_zero]
  · rw [if_neg (by omega), h, show j % 8 = j - 8 by omega]

theorem writeU16_bit (w : BitVec 16) (p : Nat) :
    (writeU16 mem off w (p / 8)).getLsbD (p % 8) = if 8 * off ≤ p ∧ p < 8 * off + 16 then w.getLsbD (p - 8 * off)
      else (mem (p / 8)).getLsbD (p % 8) := by
  unfold writeU16
  by_cases h : 8 * off ≤ p ∧ p < 8 * off + 16
  · rw [if_pos (by omega), if_pos h, getLsbD_extractLsb', show 8 * (p / 8 - off) + p % 8 = p - 8 * off by omega]
    simp [show p % 8 < 8 by omega]
  · rw [if_neg (by omega), if_neg h]

theorem writeU16_of_outside {off i : Nat} (w : BitVec 16) (h : i < off ∨ off + 2 ≤ i) :
    writeU16 mem off w i = mem i :=
  if_neg (by omega)

theorem readU32_congr {mem mem' : Nat → BitVec 8} {off off' : Nat} (h : ∀ i < 4, mem' (off' + i) = mem (off + i)) :
    readU32 mem' off' = readU32 mem off := by
  have h0 : mem' off' = mem off := h 0 (by omega)
  rw [readU32, readU32, h 3 (by omega), h 2 (by omega), h 1 (by omega), h0]

theorem readU32_writeU32_of_disjoint {off off' : Nat} (w : BitVec 32)
    (h : off' + 4 ≤ off ∨ off + 4 ≤ off') : readU32 (writeU32 mem off w) off' = readU32 mem off' :=
  readU32_congr fun i hi => if_neg (by omega)

theorem readU16_writeU32_of_disjoint {off off' : Nat} (w : BitVec 32)
    (h : off' + 2 ≤ off ∨ off + 4 ≤ off') : readU16 (writeU32 mem off w) off' = readU16 mem off' := by
  unfold readU16 writeU32
  rw [if_neg (by omega), if_neg (by omega)]

theorem readU32_writeU32_self (w : BitVec 32) : readU32 (writeU32 mem off w) off = w := by
  apply eq_of_getLsbD_eq
  intro j hj
  have hbit := writeU32_bit mem off w (8 * off + j)
  rw [if_pos (by omega), show (8 * off + j) / 8 = off + j / 8 by omega, show (8 * off + j) % 8 = j % 8 by omega,
    show 8 * off + j - 8 * off = j by omega] at hbit
  rw [readU32_bit _ _ _ hj, hbit]

theorem writeU32_readU32 (off src i : Nat) :
    writeU32 mem off (readU32 mem src) i = if off ≤ i ∧ i < off + 4 then mem (src + (i - off)) else mem i := by
  unfold writeU32
  split_ifs with h
  · apply eq_of_getLsbD_eq
    intro k hk
    rw [getLsbD_extractLsb', readU32_bit _ _ _ (by omega), show (8 * (i - off) + k) / 8 = i - off by omega,
      show (8 * (i - off) + k) % 8 = k by omega]
    simp [hk]
  · rfl

theorem writeU16_readU16 (off src i : Nat) :
    writeU16 mem off (readU16 mem src) i = if off ≤ i ∧ i < off + 2 then mem (src + (i - off)) else mem i := by
  unfold writeU16
  split_ifs with h
  · apply eq_of_getLsbD_eq
    intro k hk
    rw [getLsbD_extractLsb', readU16_bit _ _ _ (by omega), show (8 * (i - off) + k) / 8 = i - off by omega,
      show (8 * (i - off) + k) % 8 = k by omega]
    simp [hk]
  · rfl

end Kolibri.Bytes
