import Mathlib

/-! # Sums with an end-around carry -/

namespace Kolibri.OnesComplement

open Nat

variable {m : Nat}

def fold (m n : Nat) : Nat := if n = 0 then 0 else (n - 1) % m + 1

theorem fold_eq_self {n : Nat} (h : n ≤ m) : fold m n = n := by
  unfold fold
  split_ifs with h0
  · exact h0.symm
  · rw [mod_eq_of_lt (by omega)]
    omega

theorem fold_le (hm : 0 < m) (n : Nat) : fold m n ≤ m := by
  unfold fold
  split_ifs
  · exact zero_le m
  · exact mod_lt _ hm

theorem fold_eq_zero_iff {n : Nat} : fold m n = 0 ↔ n = 0 := by
  unfold fold
  split_ifs with h0
  · exact ⟨fun _ => h0, fun _ => rfl⟩
  · exact ⟨False.elim, fun h => absurd h h0⟩

theorem fold_modEq (n : Nat) : fold m n ≡ n [MOD m] := by
  unfold fold
  split_ifs with h0
  · rw [h0]
  · calc (n - 1) % m + 1 ≡ (n - 1) + 1 [MOD m] := (mod_modEq _ _).add_right 1
      _ = n := by omega

theorem fold_congr {a b : Nat} (hzero : a = 0 ↔ b = 0) (h : a ≡ b [MOD m]) : fold m a = fold m b := by
  unfold fold
  by_cases h0 : a = 0
  · rw [if_pos h0, if_pos (hzero.mp h0)]
  have hb : b ≠ 0 := fun hb => h0 (hzero.mpr hb)
  rw [if_neg h0, if_neg hb]
  have hpred : a - 1 ≡ b - 1 [MOD m] := by
    refine Nat.ModEq.add_right_cancel' 1 ?_
    rwa [Nat.sub_add_cancel (by omega), Nat.sub_add_cancel (by omega)]
  rw [hpred]

theorem fold_fold_add (a b : Nat) : fold m (fold m a + b) = fold m (a + b) := by
  refine fold_congr ?_ ((fold_modEq a).add_right b)
  rw [Nat.add_eq_zero_iff, Nat.add_eq_zero_iff, fold_eq_zero_iff]

theorem fold_eq_top_iff (hm : 0 < m) {n : Nat} : fold m n = m ↔ n ≠ 0 ∧ m ∣ n := by
  have hmod := fold_modEq (m := m) n
  have hle := fold_le hm n
  constructor
  · intro h
    refine ⟨fun h0 => ?_, ?_⟩
    · rw [fold_eq_zero_iff.mpr h0] at h
      omega
    · rw [h] at hmod
      exact (modEq_zero_iff_dvd).mp (hmod.symm.trans (modEq_zero_iff_dvd.mpr dvd_rfl))
  · rintro ⟨h0, hdvd⟩
    have hpos : fold m n ≠ 0 := fun h => h0 (fold_eq_zero_iff.mp h)
    have hdvd' : m ∣ fold m n := modEq_zero_iff_dvd.mp (hmod.trans (modEq_zero_iff_dvd.mpr hdvd))
    exact le_antisymm hle (le_of_dvd (by omega) hdvd')

theorem digit_add_carry {e w : Nat} (he : e ≤ m) (hw : w ≤ m) :
    (e + w) % (m + 1) + (e + w) / (m + 1) = fold m (e + w) := by
  by_cases h : e + w ≤ m
  · rw [Nat.mod_eq_of_lt (by omega), Nat.div_eq_of_lt (by omega), fold_eq_self h, Nat.add_zero]
  have hdiv : (e + w) / (m + 1) = 1 := Nat.div_eq_of_lt_le (by omega) (by omega)
  have hmod : (e + w) % (m + 1) = e + w - (m + 1) := by
    rw [Nat.mod_eq_sub_mod (by omega), Nat.mod_eq_of_lt (by omega)]
  rw [hdiv, hmod]
  unfold fold
  rw [if_neg (by omega), Nat.mod_eq_sub_mod (by omega), Nat.mod_eq_of_lt (by omega)]
  omega

end Kolibri.OnesComplement
