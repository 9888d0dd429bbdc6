import Kolibri.Bitmap.Code

/-! # What the page bitmap means: a set of free pages -/

namespace Kolibri.Bitmap

open Bytes

variable (b : PhysBitmap)

def PhysBitmap.free (p : Nat) : Bool := (b.map (p / 8)).getLsbD (p % 8)

def PhysBitmap.pages : Nat := 8 * b.pageEnd.toNat

def PhysBitmap.freePages : Finset Nat :=
  (Finset.range b.pages).filter fun p => b.free p

/-- What `init_page_map` leaves. `sys_pgmap` has one bit for each page of 4 GiB. -/
structure PhysBitmap.Valid (b : PhysBitmap) : Prop where
  start_aligned : b.pageStart.toNat % 4 = 0
  end_aligned : b.pageEnd.toNat % 4 = 0
  end_le : b.pageEnd.toNat ≤ 0x20000

/-- A map whose pages can be counted in a signed number. -/
structure PhysBitmap.Bounded (b : PhysBitmap) : Prop where
  start_aligned : b.pageStart.toNat % 4 = 0
  end_aligned : b.pageEnd.toNat % 4 = 0
  end_lt : b.pageEnd.toNat < 2 ^ 28

theorem PhysBitmap.Valid.bounded {b : PhysBitmap} (hb : b.Valid) : b.Bounded :=
  ⟨hb.start_aligned, hb.end_aligned, hb.end_le.trans_lt (by decide)⟩

theorem PhysBitmap.Valid.of_end {b b' : PhysBitmap} (hb : b.Valid) (hend : b'.pageEnd = b.pageEnd)
    (hstart : b'.pageStart.toNat % 4 = 0) : b'.Valid :=
  ⟨hstart, by rw [hend]; exact hb.end_aligned, by rw [hend]; exact hb.end_le⟩

@[simp] theorem mem_freePages (p : Nat) : p ∈ b.freePages ↔ p < b.pages ∧ b.free p = true := by
  simp [PhysBitmap.freePages]

/-! ## Bits of the map -/

theorem readU32_eq_zero_iff (off : Nat) :
    readU32 b.map off = 0 ↔ ∀ p, 8 * off ≤ p → p < 8 * off + 32 → b.free p = false := by
  constructor
  · intro h p hlo hhi
    have hbit := readU32_bit b.map off (p - 8 * off) (by omega)
    rw [h, show off + (p - 8 * off) / 8 = p / 8 by omega, show (p - 8 * off) % 8 = p % 8 by omega] at hbit
    simpa [PhysBitmap.free] using hbit.symm
  intro h
  apply BitVec.eq_of_getLsbD_eq
  intro j hj
  have hp := h (8 * off + j) (by omega) (by omega)
  rw [PhysBitmap.free, show (8 * off + j) / 8 = off + j / 8 by omega, show (8 * off + j) % 8 = j % 8 by omega] at hp
  rw [readU32_bit _ _ _ hj, hp]
  simp

theorem clearBytes_bit (map : Nat → BitVec 8) (off n p : Nat) :
    (clearBytes map off n (p / 8)).getLsbD (p % 8) =
      ((map (p / 8)).getLsbD (p % 8) && decide (¬ (8 * off ≤ p ∧ p < 8 * (off + n)))) := by
  unfold clearBytes
  by_cases h : 8 * off ≤ p ∧ p < 8 * (off + n)
  · rw [if_pos (by omega)]
    simp [h]
  · rw [if_neg (by omega)]
    simp [h]

theorem free_of_byte (p : Nat) (h : b.map (p / 8) = 0xFF) : b.free p = true := by
  have hp : p % 8 < 8 := Nat.mod_lt _ (by omega)
  rw [PhysBitmap.free, h]
  interval_cases p % 8 <;> rfl

end Kolibri.Bitmap
