import Mathlib

/-!
# Stretches of machine numbers

The `n` numbers from `lo` on, each one more than the one before, modulo the word size.
-/

namespace Kolibri.Stretch

open BitVec

variable {w : Nat}

def stretch (lo : BitVec w) : Nat → List (BitVec w)
  | 0 => []
  | n + 1 => lo :: stretch (lo + 1) n

variable (lo : BitVec w)

@[simp] theorem stretch_zero : stretch lo 0 = [] := rfl

@[simp] theorem stretch_succ (n : Nat) : stretch lo (n + 1) = lo :: stretch (lo + 1) n := rfl

@[simp] theorem length_stretch (n : Nat) : (stretch lo n).length = n := by
  induction n generalizing lo with
  | zero => rfl
  | succ n ih => simp [ih]

theorem add_one_add_ofNat (n : Nat) : lo + 1 + BitVec.ofNat w n = lo + BitVec.ofNat w (n + 1) := by
  rw [ofNat_add, add_assoc, add_comm (1 : BitVec w)]
  rfl

theorem add_ofNat_succ (n : Nat) : lo + BitVec.ofNat w (n + 1) = lo + BitVec.ofNat w n + 1 := by
  rw [ofNat_add, ← add_assoc]
  rfl

theorem mem_stretch {lo t : BitVec w} {n : Nat} : t ∈ stretch lo n ↔ ∃ i < n, t = lo + BitVec.ofNat w i := by
  induction n generalizing lo with
  | zero => simp
  | succ n ih =>
    rw [stretch_succ, List.mem_cons, ih]
    constructor
    · rintro (rfl | ⟨i, hi, rfl⟩)
      · exact ⟨0, by omega, by simp⟩
      · exact ⟨i + 1, by omega, add_one_add_ofNat lo i⟩
    · rintro ⟨i, hi, rfl⟩
      cases i with
      | zero => left; simp
      | succ i => exact .inr ⟨i, by omega, (add_one_add_ofNat lo i).symm⟩

theorem stretch_append (m n : Nat) : stretch lo (m + n) = stretch lo m ++ stretch (lo + BitVec.ofNat w m) n := by
  induction m generalizing lo with
  | zero => simp
  | succ m ih =>
    rw [Nat.add_right_comm, stretch_succ, ih, stretch_succ, add_one_add_ofNat, List.cons_append]

theorem mem_stretch_mono {lo t : BitVec w} {m n : Nat} (h : m ≤ n) (ht : t ∈ stretch lo m) : t ∈ stretch lo n := by
  obtain ⟨i, hi, rfl⟩ := mem_stretch.mp ht
  exact mem_stretch.mpr ⟨i, by omega, rfl⟩

theorem map_range' {f : Nat → BitVec w} {lo : BitVec w} {a n : Nat}
    (h : ∀ j < n, f (a + j) = lo + BitVec.ofNat w j) : (List.range' a n).map f = stretch lo n := by
  induction n generalizing a lo with
  | zero => rfl
  | succ n ih =>
    have hfirst : f a = lo := by simpa using h 0 (by omega)
    have hrest : ∀ j < n, f (a + 1 + j) = lo + 1 + BitVec.ofNat w j := by
      intro j hj
      rw [add_one_add_ofNat, ← h (j + 1) (by omega), Nat.add_assoc, Nat.add_comm 1]
    rw [List.range'_succ, List.map_cons, stretch_succ, hfirst, ih hrest]

theorem nodup_stretch {n : Nat} (h : n ≤ 2 ^ w) : (stretch lo n).Nodup := by
  induction n generalizing lo with
  | zero => exact List.nodup_nil
  | succ n ih =>
    rw [stretch_succ, List.nodup_cons]
    refine ⟨?_, ih _ (by omega)⟩
    intro hmem
    obtain ⟨i, hi, heq⟩ := mem_stretch.mp hmem
    rw [add_one_add_ofNat] at heq
    have hzero : BitVec.ofNat w (i + 1) = 0 := by simpa using heq.symm
    have := congrArg BitVec.toNat hzero
    simp only [toNat_ofNat, ofNat_eq_ofNat, Nat.zero_mod] at this
    rw [Nat.mod_eq_of_lt (by omega)] at this
    omega

end Kolibri.Stretch
