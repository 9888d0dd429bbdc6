import Kolibri.Lib.Bytes

/-!
# Buffers with bounds

An access past the end of a buffer fails.
-/

namespace Kolibri

open BitVec

structure Buffer where
  len : Nat
  bytes : Nat → BitVec 8

namespace Buffer

open Function

variable {b b' : Buffer} {off n w : Nat} {l : List (BitVec 8)}

def set? (b : Buffer) (off : Nat) (x : BitVec 8) : Option Buffer :=
  if off < b.len then some { b with bytes := update b.bytes off x } else none

def readU32? (b : Buffer) (off : Nat) : Option (BitVec 32) :=
  if off + 4 ≤ b.len then some (Bytes.readU32 b.bytes off) else none

def writeU32? (b : Buffer) (off : Nat) (w : BitVec 32) : Option Buffer :=
  if off + 4 ≤ b.len then some { b with bytes := Bytes.writeU32 b.bytes off w } else none

def leBytes : Nat → BitVec w → List (BitVec 8)
  | 0, _ => []
  | n + 1, v => v.setWidth 8 :: leBytes n (v >>> 8)

def writeLeBytes : Nat → Buffer → Nat → BitVec w → Option Buffer
  | 0, b, _, _ => some b
  | n + 1, b, off, v => do
    let b ← b.set? off (v.setWidth 8)
    writeLeBytes n b (off + 1) (v >>> 8)

/-! ## Lists of bytes in a buffer -/

variable (bytes : Nat → BitVec 8)

def overlay (off : Nat) (l : List (BitVec 8)) : Nat → BitVec 8 :=
  fun i => if off ≤ i then l[i - off]?.getD (bytes i) else bytes i

def Stands (off : Nat) (l : List (BitVec 8)) : Prop :=
  ∀ i (hi : i < l.length), bytes (off + i) = l[i]

@[simp] theorem overlay_nil (off : Nat) : overlay bytes off [] = bytes := by
  funext i
  simp [overlay]

theorem overlay_cons (off : Nat) (x : BitVec 8) (l : List (BitVec 8)) :
    overlay bytes off (x :: l) = overlay (update bytes off x) (off + 1) l := by
  funext i
  unfold overlay
  rcases Nat.lt_trichotomy i off with h | rfl | h
  · rw [if_neg (by omega), if_neg (by omega), update_of_ne (by omega)]
  · simp
  · rw [if_pos (by omega), if_pos (by omega), update_of_ne (by omega), show i - off = i - (off + 1) + 1 by omega,
      List.getElem?_cons_succ]

theorem overlay_append (off : Nat) (l1 l2 : List (BitVec 8)) :
    overlay bytes off (l1 ++ l2) = overlay (overlay bytes off l1) (off + l1.length) l2 := by
  induction l1 generalizing bytes off with
  | nil => simp
  | cons x l1 ih =>
    rw [List.cons_append, overlay_cons, ih, overlay_cons, List.length_cons, Nat.add_right_comm, Nat.add_assoc]

variable {i j : Nat} {bytes bytes' : Nat → BitVec 8} {v : BitVec 32}

theorem overlay_of_lt (bytes : Nat → BitVec 8) (l : List (BitVec 8)) (h : i < off) :
    overlay bytes off l i = bytes i :=
  if_neg (by omega)

theorem overlay_of_ge (bytes : Nat → BitVec 8) (h : off + l.length ≤ i) : overlay bytes off l i = bytes i := by
  unfold overlay
  rw [if_pos (by omega), List.getElem?_eq_none (by omega), Option.getD_none]

theorem stands_overlay (bytes : Nat → BitVec 8) (off : Nat) (l : List (BitVec 8)) :
    Stands (overlay bytes off l) off l := by
  intro i hi
  unfold overlay
  rw [if_pos (by omega), show off + i - off = i by omega, List.getElem?_eq_getElem hi, Option.getD_some]

theorem Stands.append_left {l1 l2 : List (BitVec 8)} (h : Stands bytes off (l1 ++ l2)) : Stands bytes off l1 := by
  intro i hi
  rw [h i (by rw [List.length_append]; omega), List.getElem_append_left hi]

theorem Stands.append_right {bytes : Nat → BitVec 8} {l1 l2 : List (BitVec 8)} (h : Stands bytes off (l1 ++ l2)) :
    Stands bytes (off + l1.length) l2 := by
  intro i hi
  rw [Nat.add_assoc, h (l1.length + i) (by rw [List.length_append]; omega), List.getElem_append_right (by omega)]
  simp

theorem Stands.congr (h : Stands bytes off l) (heq : ∀ i < l.length, bytes' (off + i) = bytes (off + i)) :
    Stands bytes' off l :=
  fun i hi => (heq i hi).trans (h i hi)

theorem set?_eq_some {x : BitVec 8} (h : b.set? off x = some b') :
    off < b.len ∧ b' = { b with bytes := overlay b.bytes off [x] } := by
  unfold set? at h
  split at h
  · cases h
    refine ⟨‹_›, ?_⟩
    rw [overlay_cons, overlay_nil]
  · cases h

theorem readU32?_eq_some (h : b.readU32? off = some v) : off + 4 ≤ b.len ∧ v = Bytes.readU32 b.bytes off := by
  unfold readU32? at h
  split at h
  · cases h
    exact ⟨‹_›, rfl⟩
  · cases h

theorem writeU32?_eq_some (h : b.writeU32? off v = some b') :
    off + 4 ≤ b.len ∧ b' = { b with bytes := Bytes.writeU32 b.bytes off v } := by
  unfold writeU32? at h
  split at h
  · cases h
    exact ⟨‹_›, rfl⟩
  · cases h

@[simp] theorem length_leBytes (n : Nat) (v : BitVec w) : (leBytes n v).length = n := by
  induction n generalizing v with
  | zero => rfl
  | succ n ih => rw [leBytes, List.length_cons, ih]

theorem getElem_leBytes (v : BitVec w) (hi : i < (leBytes n v).length) :
    (leBytes n v)[i] = (v >>> (8 * i)).setWidth 8 := by
  induction n generalizing v i with
  | zero => simp at hi
  | succ n ih =>
    cases i with
    | zero => simp [leBytes]
    | succ i =>
      simp only [leBytes, List.getElem_cons_succ]
      rw [ih, ← shiftRight_add, show 8 + 8 * i = 8 * (i + 1) by omega]

theorem writeLeBytes_eq_some {v : BitVec w} (h : writeLeBytes n b off v = some b') :
    b' = { b with bytes := overlay b.bytes off (leBytes n v) } := by
  induction n generalizing b off v with
  | zero =>
    cases h
    simp [leBytes]
  | succ n ih =>
    rw [writeLeBytes, Option.bind_eq_bind, Option.bind_eq_some_iff] at h
    obtain ⟨b1, hset, hrest⟩ := h
    obtain ⟨-, rfl⟩ := set?_eq_some hset
    rw [ih hrest, leBytes]
    exact congrArg (Buffer.mk b.len) (overlay_append b.bytes off [v.setWidth 8] (leBytes n (v >>> 8))).symm

theorem Stands.readU16 {v : BitVec 16} (h : Stands bytes off (leBytes 2 v)) : Bytes.readU16 bytes off = v := by
  apply eq_of_getLsbD_eq
  intro j hj
  rw [Bytes.readU16_bit _ _ _ hj, h (j / 8) (by rw [length_leBytes]; omega), getElem_leBytes]
  simp [show 8 * (j / 8) + j % 8 = j by omega, show j % 8 < 8 by omega]

theorem Stands.readU32 (h : Stands bytes off (leBytes 4 v)) : Bytes.readU32 bytes off = v := by
  apply eq_of_getLsbD_eq
  intro j hj
  rw [Bytes.readU32_bit _ _ _ hj, h (j / 8) (by rw [length_leBytes]; omega), getElem_leBytes]
  simp [show 8 * (j / 8) + j % 8 = j by omega, show j % 8 < 8 by omega]

/-! ## Little endian values -/

def leValue (bytes : Nat → BitVec 8) (off : Nat) : Nat → BitVec 64
  | 0 => 0
  | n + 1 => leValue bytes off n ||| (bytes (off + n)).setWidth 64 <<< (8 * n)

theorem getLsbD_leValue (bytes : Nat → BitVec 8) (off : Nat) {n : Nat} (hj : j < 64) :
    (leValue bytes off n).getLsbD j = (decide (j < 8 * n) && (bytes (off + j / 8)).getLsbD (j % 8)) := by
  induction n with
  | zero => simp [leValue]
  | succ n ih =>
    rw [leValue, getLsbD_or, ih, getLsbD_shiftLeft]
    rcases Nat.lt_trichotomy (j / 8) n with h | h | h
    · simp [hj, show j < 8 * n by omega, show j < 8 * (n + 1) by omega]
    · simp [hj, h, show ¬ j < 8 * n by omega, show j < 8 * (n + 1) by omega, show j - 8 * n = j % 8 by omega]
      omega
    · simp [hj, show ¬ j < 8 * n by omega, show ¬ j < 8 * (n + 1) by omega]
      intro _
      apply getLsbD_of_ge
      omega

theorem getLsbD_leValue_of_bytes {v : BitVec 64} (h : ∀ i < n, bytes (off + i) = (v >>> (8 * i)).setWidth 8)
    (hj : j < 64) : (leValue bytes off n).getLsbD j = (decide (j < 8 * n) && v.getLsbD j) := by
  rw [getLsbD_leValue bytes off hj]
  by_cases hlt : j < 8 * n
  · rw [h (j / 8) (by omega)]
    simp [show 8 * (j / 8) + j % 8 = j by omega, show j % 8 < 8 by omega]
  · simp [hlt]

theorem leValue_overlay (bytes : Nat → BitVec 8) (off : Nat) (v : BitVec 64) :
    leValue (overlay bytes off (leBytes 8 v)) off 8 = v := by
  apply eq_of_getLsbD_eq
  intro j hj
  rw [getLsbD_leValue_of_bytes (v := v) _ hj, decide_eq_true (by omega), Bool.true_and]
  intro i hi
  rw [stands_overlay bytes off (leBytes 8 v) i (by simpa using hi), getElem_leBytes]

theorem leValue_congr {off' : Nat} (h : ∀ i < n, bytes' (off' + i) = bytes (off + i)) :
    leValue bytes' off' n = leValue bytes off n := by
  induction n with
  | zero => rfl
  | succ n ih => rw [leValue, leValue, ih fun i hi => h i (by omega), h n (by omega)]

end Buffer

end Kolibri
