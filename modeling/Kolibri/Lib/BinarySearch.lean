import Mathlib

/-! # Binary search that stops at an equal key

The fuel is the number of rounds, and one for each key is enough.
-/

namespace Kolibri.BinarySearch

variable {α : Type*} [LinearOrder α] {key key' : Nat → α} {x : α} {fuel lo n i : Nat}

def search (key : Nat → α) (x : α) : Nat → Nat → Nat → Option Nat
  | 0, _, _ => none
  | fuel + 1, lo, n =>
    if n = 0 then none
    else if x < key (lo + n / 2) then search key x fuel lo (n / 2)
    else if key (lo + n / 2) < x then search key x fuel (lo + n / 2 + 1) (n - n / 2 - 1)
    else some (lo + n / 2)

theorem search_some (h : search key x fuel lo n = some i) : lo ≤ i ∧ i < lo + n ∧ key i = x := by
  induction fuel generalizing lo n with
  | zero => cases h
  | succ fuel ih =>
    unfold search at h
    split_ifs at h with hzero hbelow habove
    · obtain ⟨h1, h2, h3⟩ := ih h
      exact ⟨h1, by omega, h3⟩
    · obtain ⟨h1, h2, h3⟩ := ih h
      exact ⟨by omega, by omega, h3⟩
    · cases h
      exact ⟨by omega, by omega, le_antisymm (not_lt.mp hbelow) (not_lt.mp habove)⟩

theorem search_none (hsorted : ∀ i j, lo ≤ i → i ≤ j → j < lo + n → key i ≤ key j) (hfuel : n < fuel)
    (h : search key x fuel lo n = none) : ∀ i, lo ≤ i → i < lo + n → key i ≠ x := by
  induction fuel generalizing lo n with
  | zero => omega
  | succ fuel ih =>
    intro i hlo hi heq
    unfold search at h
    split_ifs at h with hzero hbelow habove
    · omega
    · -- From the middle on all keys are above.
      rcases Nat.lt_or_ge i (lo + n / 2) with hlt | hge
      · exact ih (fun i j h1 h2 h3 => hsorted i j h1 h2 (by omega)) (by omega) h i hlo hlt heq
      · have hle := hsorted (lo + n / 2) i (by omega) hge hi
        rw [heq] at hle
        exact absurd hbelow (not_lt.mpr hle)
    · rcases Nat.lt_or_ge (lo + n / 2) i with hlt | hge
      · exact ih (fun i j h1 h2 h3 => hsorted i j (by omega) h2 (by omega)) (by omega) h i (by omega) (by omega) heq
      · have hle := hsorted i (lo + n / 2) hlo hge (by omega)
        rw [heq] at hle
        exact absurd habove (not_lt.mpr hle)

theorem search_congr (h : ∀ i, lo ≤ i → i < lo + n → key' i = key i) :
    search key' x fuel lo n = search key x fuel lo n := by
  induction fuel generalizing lo n with
  | zero => rfl
  | succ fuel ih =>
    unfold search
    by_cases hzero : n = 0
    · rw [if_pos hzero, if_pos hzero]
    · rw [if_neg hzero, if_neg hzero, h (lo + n / 2) (by omega) (by omega),
        ih fun i h1 h2 => h i h1 (by omega), ih fun i h1 h2 => h i (by omega) (by omega)]

end Kolibri.BinarySearch
