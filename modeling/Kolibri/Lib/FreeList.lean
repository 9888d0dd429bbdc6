import Mathlib

/-! # A free list inside a table

The free slots of a table hold the index of the next free slot, and a counter says how many there are.
-/

namespace Kolibri.FreeList

variable {ν : Type*}

/-- `l` is what the links give from `head` on. The link of the last slot is not looked at. -/
def Chain (next : ν → ν) : ν → List ν → Prop
  | _, [] => True
  | head, x :: l => head = x ∧ Chain next (next x) l

theorem chain_congr {next next' : ν → ν} {head : ν} {l : List ν} (h : Chain next head l)
    (heq : ∀ x ∈ l, next' x = next x) : Chain next' head l := by
  induction l generalizing head with
  | nil => trivial
  | cons x l ih =>
    obtain ⟨rfl, hl⟩ := h
    refine ⟨rfl, ?_⟩
    rw [heq head List.mem_cons_self]
    exact ih hl fun y hy => heq y (List.mem_cons_of_mem _ hy)

theorem chain_push {next next' : ν → ν} {head x : ν} {l : List ν} (h : Chain next head l)
    (hx : next' x = head) (heq : ∀ y ∈ l, next' y = next y) : Chain next' x (x :: l) := by
  refine ⟨rfl, ?_⟩
  rw [hx]
  exact chain_congr h heq

theorem chain_range {next : Nat → Nat} (n len : Nat) (h : ∀ x, n ≤ x → x < n + len → next x = x + 1) :
    Chain next n (List.range' n len) := by
  induction len generalizing n with
  | zero => trivial
  | succ len ih =>
    refine ⟨rfl, ?_⟩
    rw [h n (Nat.le_refl n) (by omega)]
    exact ih (n + 1) fun x h1 h2 => h x (by omega) (by omega)

theorem length_le_of_bounded {l : List Nat} {n : Nat} (hl : l.Nodup) (h : ∀ x ∈ l, x < n) : l.length ≤ n := by
  have hsub : l ⊆ List.range n := fun x hx => List.mem_range.mpr (h x hx)
  have hle := (List.subperm_of_subset hl hsub).length_le
  rwa [List.length_range] at hle

end Kolibri.FreeList
