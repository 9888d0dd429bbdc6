import Mathlib

/-!
# The memory of a machine with 32 bit addresses

Words are little endian and need no alignment. Addresses wrap.
-/

namespace Kolibri.Memory

open Function BitVec

abbrev Mem := BitVec 32 → BitVec 8

def load16 (mem : Mem) (a : BitVec 32) : BitVec 16 := mem (a + 1) ++ mem a

def load32 (mem : Mem) (a : BitVec 32) : BitVec 32 := mem (a + 3) ++ mem (a + 2) ++ mem (a + 1) ++ mem a

def storeBytes (mem : Mem) (a : BitVec 32) : List (BitVec 8) → Mem
  | [] => mem
  | b :: bs => storeBytes (update mem a b) (a + 1) bs

def store16 (mem : Mem) (a : BitVec 32) (w : BitVec 16) : Mem :=
  storeBytes mem a [w.extractLsb' 0 8, w.extractLsb' 8 8]

def store32 (mem : Mem) (a w : BitVec 32) : Mem :=
  storeBytes mem a [w.extractLsb' 0 8, w.extractLsb' 8 8, w.extractLsb' 16 8, w.extractLsb' 24 8]

def swap16 (w : BitVec 16) : BitVec 16 := w.extractLsb' 0 8 ++ w.extractLsb' 8 8

theorem storeBytes_of_ne {a b : BitVec 32} {bs : List (BitVec 8)} (mem : Mem)
    (h : ∀ i < bs.length, b ≠ a + BitVec.ofNat 32 i) : storeBytes mem a bs b = mem b := by
  induction bs generalizing mem a with
  | nil => rfl
  | cons x bs ih =>
    have hhead : b ≠ a := by simpa using h 0 (by simp)
    rw [storeBytes, ih, update_of_ne hhead]
    intro i hi
    have htail := h (i + 1) (by simpa using hi)
    rwa [Nat.add_comm, ofNat_add, ← add_assoc] at htail

theorem store16_offset {mem : Mem} {a : BitVec 32} {w : BitVec 16} {i j : Nat} (hi : i < 2 ^ 16)
    (hj : j < 2 ^ 16) (h : i < j ∨ j + 2 ≤ i) :
    store16 mem (a + BitVec.ofNat 32 j) w (a + BitVec.ofNat 32 i) = mem (a + BitVec.ofNat 32 i) := by
  refine storeBytes_of_ne mem fun k hk heq => ?_
  simp only [List.length_cons, List.length_nil] at hk
  rw [add_assoc, ← ofNat_add] at heq
  have hoff := congrArg BitVec.toNat (add_left_cancel heq)
  rw [toNat_ofNat, toNat_ofNat] at hoff
  omega

end Kolibri.Memory
