import Mathlib

/-! # Parts of a 32 bit register, as with `ax`, `al` and `ah` of `eax` -/

namespace Kolibri.Registers

open BitVec

variable {r : BitVec 32} {b : BitVec 8} {w : BitVec 16}

def low8 (r : BitVec 32) : BitVec 8 := r.setWidth 8

def high8 (r : BitVec 32) : BitVec 8 := (r >>> 8).setWidth 8

def low16 (r : BitVec 32) : BitVec 16 := r.setWidth 16

def setLow8 (r : BitVec 32) (b : BitVec 8) : BitVec 32 := (r &&& 0xFFFFFF00#32) ||| b.setWidth 32

def setHigh8 (r : BitVec 32) (b : BitVec 8) : BitVec 32 := (r &&& 0xFFFF00FF#32) ||| b.setWidth 32 <<< 8

def setLow16 (r : BitVec 32) (w : BitVec 16) : BitVec 32 := (r &&& 0xFFFF0000#32) ||| w.setWidth 32

theorem toNat_low8 : (low8 r).toNat = r.toNat % 256 := by
  simp [low8]

theorem toNat_high8 : (high8 r).toNat = r.toNat / 256 % 256 := by
  simp [high8, Nat.shiftRight_eq_div_pow]

theorem toNat_low16 : (low16 r).toNat = r.toNat % 65536 := by
  simp [low16]

theorem setLow8_eq_append : setLow8 r b = r.extractLsb' 8 24 ++ b := by
  apply eq_of_getLsbD_eq
  intro i hi
  unfold setLow8
  rw [getLsbD_append]
  interval_cases i <;> simp

theorem setHigh8_eq_append : setHigh8 r b = (r.extractLsb' 16 16 ++ b ++ r.extractLsb' 0 8 : BitVec 32) := by
  apply eq_of_getLsbD_eq
  intro i hi
  unfold setHigh8
  rw [getLsbD_append, getLsbD_append]
  interval_cases i <;> simp

theorem setLow16_eq_append : setLow16 r w = r.extractLsb' 16 16 ++ w := by
  apply eq_of_getLsbD_eq
  intro i hi
  unfold setLow16
  rw [getLsbD_append]
  interval_cases i <;> simp

theorem low16_setLow16 : low16 (setLow16 r w) = w := by
  ext i hi
  interval_cases i <;> simp [low16, setLow16]

/-! What is done to the low word does not look at the rest. -/

theorem getLsbD_of_low16 {x y : BitVec 32} (h : low16 x = low16 y) {i : Nat} (hi : i < 16) : x.getLsbD i = y.getLsbD i := by
  have hbit := congrArg (fun w : BitVec 16 => w.getLsbD i) h
  simpa [low16, hi] using hbit

theorem low8_setLow8 (x : BitVec 32) (b : BitVec 8) : low8 (setLow8 x b) = b := by
  ext i hi
  interval_cases i <;> simp [setLow8, low8]

theorem low16_setLow8_congr {x y : BitVec 32} (h : low16 x = low16 y) (b : BitVec 8) :
    low16 (setLow8 x b) = low16 (setLow8 y b) := by
  ext i hi
  interval_cases i <;> simp_all [setLow8, low16]

theorem low16_setHigh8_congr {x y : BitVec 32} (h : low16 x = low16 y) (b : BitVec 8) :
    low16 (setHigh8 x b) = low16 (setHigh8 y b) := by
  ext i hi
  interval_cases i <;> simp_all [setHigh8, low16]

theorem high8_of_low16 {x y : BitVec 32} (h : low16 x = low16 y) : high8 x = high8 y := by
  ext i hi
  have hbit := @getLsbD_of_low16 x y h (8 + i) (by omega)
  interval_cases i <;> simp_all [high8]

theorem toNat_setLow8 : (setLow8 r b).toNat = r.toNat / 256 * 256 + b.toNat := by
  rw [setLow8_eq_append, toNat_append, ← Nat.shiftLeft_add_eq_or_of_lt b.isLt, BitVec.extractLsb'_toNat,
    Nat.shiftLeft_eq, Nat.shiftRight_eq_div_pow]
  omega

theorem toNat_setLow16 : (setLow16 r w).toNat = r.toNat / 65536 * 65536 + w.toNat := by
  rw [setLow16_eq_append, toNat_append, ← Nat.shiftLeft_add_eq_or_of_lt w.isLt, BitVec.extractLsb'_toNat,
    Nat.shiftLeft_eq, Nat.shiftRight_eq_div_pow]
  omega

theorem toNat_setHigh8 : (setHigh8 r b).toNat = r.toNat / 65536 * 65536 + b.toNat * 256 + r.toNat % 256 := by
  rw [setHigh8_eq_append, toNat_append, ← Nat.shiftLeft_add_eq_or_of_lt (BitVec.isLt _), toNat_append,
    ← Nat.shiftLeft_add_eq_or_of_lt b.isLt, BitVec.extractLsb'_toNat, BitVec.extractLsb'_toNat,
    Nat.shiftLeft_eq, Nat.shiftLeft_eq, Nat.shiftRight_eq_div_pow, Nat.shiftRight_eq_div_pow]
  omega

theorem toNat_rotateRight_of_lt {k : Nat} (h : k < 32) :
    (r.rotateRight k).toNat = r.toNat % 2 ^ k * 2 ^ (32 - k) + r.toNat / 2 ^ k := by
  have hlow : r.toNat <<< (32 - k) % 2 ^ 32 = (r.toNat % 2 ^ k) <<< (32 - k) := by
    rw [Nat.shiftLeft_eq, Nat.shiftLeft_eq, ← Nat.mul_mod_mul_right, ← pow_add, show k + (32 - k) = 32 by omega]
  have hhigh : r.toNat / 2 ^ k < 2 ^ (32 - k) := by
    rw [Nat.div_lt_iff_lt_mul (Nat.two_pow_pos k), ← pow_add, show 32 - k + k = 32 by omega]
    exact r.isLt
  rw [toNat_rotateRight, Nat.mod_eq_of_lt h, hlow, Nat.shiftRight_eq_div_pow, Nat.or_comm,
    ← Nat.shiftLeft_add_eq_or_of_lt hhigh, Nat.shiftLeft_eq]

end Kolibri.Registers
