import Mathlib

/-!
# A list in a ring of cells

The cells are numbered without end, and cell `i` is the same as cell `i % n`.
-/

namespace Kolibri.Ring

open Function List Nat

variable {β : Type*} {n r : Nat} {cell : Nat → β} {q : List β}

/-- The list stands in the ring from cell `r` on. -/
structure Holds (n : Nat) (cell : Nat → β) (r : Nat) (q : List β) : Prop where
  length_le : q.length ≤ n
  get : ∀ i (h : i < q.length), cell ((r + i) % n) = q[i]

def put (n : Nat) : (Nat → β) → Nat → List β → Nat → β
  | cell, _, [] => cell
  | cell, w, x :: xs => put n (update cell (w % n) x) (w + 1) xs

theorem holds_nil (n : Nat) (cell : Nat → β) (r : Nat) : Holds n cell r [] :=
  ⟨zero_le n, fun _ h => absurd h (not_lt_zero _)⟩

theorem add_mod_ne {i j : Nat} (hi : i < j) (hj : j < n) : (r + i) % n ≠ (r + j) % n := by
  intro h
  have hmod : i ≡ j [MOD n] := Nat.ModEq.add_left_cancel' r h
  rw [Nat.ModEq, mod_eq_of_lt (hi.trans hj), mod_eq_of_lt hj] at hmod
  omega

theorem holds_mod : Holds n cell (r % n) q ↔ Holds n cell r q := by
  constructor <;> intro h <;> refine ⟨h.length_le, fun i hi => ?_⟩
  · rw [← h.get i hi, mod_add_mod]
  · rw [mod_add_mod, h.get i hi]

theorem put_congr {w w' : Nat} (h : w ≡ w' [MOD n]) (cell : Nat → β) (xs : List β) :
    put n cell w xs = put n cell w' xs := by
  induction xs generalizing cell w w' with
  | nil => rfl
  | cons x xs ih =>
    rw [put, put, show w % n = w' % n from h]
    exact ih (h.add_right 1) _

namespace Holds

theorem push (h : Holds n cell r q) (hlt : q.length < n) (x : β) :
    Holds n (update cell ((r + q.length) % n) x) r (q ++ [x]) := by
  refine ⟨by rw [length_append, length_singleton]; omega, fun i hi => ?_⟩
  rcases lt_or_ge i q.length with hold | hnew
  · rw [update_of_ne (add_mod_ne hold hlt), h.get i hold, getElem_append_left hold]
  have hlast : i = q.length := by
    rw [length_append, length_singleton] at hi
    omega
  subst hlast
  rw [update_self, getElem_concat_length rfl]

theorem put {xs : List β} (h : Holds n cell r q) (hle : q.length + xs.length ≤ n) :
    Holds n (put n cell (r + q.length) xs) r (q ++ xs) := by
  induction xs generalizing cell q with
  | nil => rwa [append_nil]
  | cons x xs ih =>
    rw [length_cons] at hle
    have hpush := h.push (by omega) x
    have hrest := ih hpush (by rw [length_append, length_singleton]; omega)
    rwa [length_append, length_singleton, ← add_assoc, append_assoc, singleton_append] at hrest

theorem drop (h : Holds n cell r q) (k : Nat) : Holds n cell (r + k) (q.drop k) := by
  have hle := h.length_le
  refine ⟨by rw [length_drop]; omega, fun i hi => ?_⟩
  rw [length_drop] at hi
  rw [add_assoc, h.get (k + i) (by omega), getElem_drop]

theorem read (h : Holds n cell r q) {o k : Nat} (hle : o + k ≤ q.length) :
    (List.range k).map (fun i => cell ((r + o + i) % n)) = (q.drop o).take k := by
  apply ext_getElem
  · rw [length_map, length_range, length_take, length_drop]
    omega
  · intro i hi _
    rw [length_map, length_range] at hi
    rw [getElem_map, getElem_range, getElem_take, getElem_drop, add_assoc, h.get (o + i) (by omega)]

end Holds

end Kolibri.Ring
