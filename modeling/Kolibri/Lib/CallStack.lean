import Mathlib

/-! # The stack of a 32 bit machine

`Holds` speaks of the words from the top on.
-/

namespace Kolibri.CallStack

open Function BitVec

structure Stack where
  esp : BitVec 32
  mem : BitVec 32 → BitVec 32

variable {s : Stack} {v x : BitVec 32} {xs : List (BitVec 32)}

def Stack.push (s : Stack) (v : BitVec 32) : Stack := ⟨s.esp - 4, update s.mem (s.esp - 4) v⟩

def Stack.top (s : Stack) : BitVec 32 := s.mem s.esp

def Stack.pop (s : Stack) : Stack := { s with esp := s.esp + 4 }

def Stack.setTop (s : Stack) (v : BitVec 32) : Stack := { s with mem := update s.mem s.esp v }

@[simp] theorem push_esp (s : Stack) (v : BitVec 32) : (s.push v).esp = s.esp - 4 := rfl

@[simp] theorem pop_esp (s : Stack) : s.pop.esp = s.esp + 4 := rfl

@[simp] theorem setTop_esp (s : Stack) (v : BitVec 32) : (s.setTop v).esp = s.esp := rfl

def Holds : Stack → List (BitVec 32) → Prop
  | _, [] => True
  | s, x :: xs => s.top = x ∧ Holds s.pop xs

theorem Holds.top (h : Holds s (x :: xs)) : s.top = x := h.1

theorem Holds.pop (h : Holds s (x :: xs)) : Holds s.pop xs := h.2

theorem Holds.update_mem {a : BitVec 32} (h : Holds s xs)
    (ha : ∀ i < xs.length, a ≠ s.esp + BitVec.ofNat 32 (4 * i)) : Holds { s with mem := update s.mem a v } xs := by
  induction xs generalizing s with
  | nil => trivial
  | cons x xs ih =>
    refine ⟨?_, ih h.2 fun i hi => ?_⟩
    · have hne : s.esp ≠ a := by simpa using (ha 0 (by simp)).symm
      exact (update_of_ne hne ..).trans h.1
    · have hnext := ha (i + 1) (by simpa using hi)
      rwa [Nat.mul_add, Nat.add_comm, ofNat_add, ← add_assoc] at hnext

theorem four_add_words (a : BitVec 32) (i : Nat) :
    a + 4 + BitVec.ofNat 32 (4 * i) = a + BitVec.ofNat 32 (4 * (i + 1)) := by
  rw [Nat.mul_add, Nat.add_comm (4 * i), ofNat_add, ← add_assoc]
  rfl

theorem ne_add_words (a : BitVec 32) {n : Nat} (hpos : 0 < n) (hlt : n < 2 ^ 30) :
    a ≠ a + BitVec.ofNat 32 (4 * n) := by
  intro heq
  have hzero := congrArg BitVec.toNat (left_eq_add.mp heq)
  rw [toNat_ofNat, Nat.mod_eq_of_lt (by omega)] at hzero
  have : 4 * n = 0 := hzero
  omega

theorem Holds.push (h : Holds s xs) (v : BitVec 32) (hlen : xs.length < 2 ^ 29) : Holds (s.push v) (v :: xs) := by
  have hback : (s.push v).pop = { s with mem := update s.mem (s.esp - 4) v } := by
    simp [Stack.push, Stack.pop]
  refine ⟨update_self .., ?_⟩
  rw [hback]
  refine h.update_mem fun i hi heq => ?_
  rw [← BitVec.sub_add_cancel s.esp 4, BitVec.add_sub_cancel, four_add_words] at heq
  exact ne_add_words _ (by omega) (by omega) heq

theorem Holds.setTop (h : Holds s (x :: xs)) (v : BitVec 32) (hlen : xs.length < 2 ^ 29) :
    Holds (s.setTop v) (v :: xs) := by
  refine ⟨update_self .., h.2.update_mem fun i hi heq => ?_⟩
  rw [pop_esp, four_add_words] at heq
  exact ne_add_words _ (by omega) (by omega) heq

end Kolibri.CallStack
