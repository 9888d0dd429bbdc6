import Mathlib

/-!
# Page table entries (`const.inc`, `map_page` in `core/memory.inc`)
-/

namespace Kolibri.Paging

open BitVec

def pgRead : BitVec 32 := 0x001
def pgWrite : BitVec 32 := 0x002
def pgPat : BitVec 32 := 0x080
def pgGlobal : BitVec 32 := 0x100
def pgShared : BitVec 32 := 0x200
def pgSwr : BitVec 32 := 0x003
def pgUr : BitVec 32 := 0x005
def pgUwr : BitVec 32 := 0x007
def pgNocache : BitVec 32 := 0x018

variable (pat pge : Bool)

/-- What `kernel.asm` puts together at boot from the CPU's capabilities. -/
def pteValidMask : BitVec 32 :=
  0xFFFFF000 ||| pgShared ||| pgNocache ||| pgUwr ||| (if pat then pgPat else 0) |||
    (if pge then pgGlobal else 0)

def mapPage (mask phys flags : BitVec 32) : BitVec 32 := (phys ||| flags) &&& mask

def frame (entry : BitVec 32) : Nat := entry.toNat / 4096

theorem frame_eq_iff (a b : BitVec 32) : frame a = frame b ↔ a >>> 12 = b >>> 12 := by
  have hshift : ∀ x : BitVec 32, (x >>> 12).toNat = frame x := by
    intro x
    rw [toNat_ushiftRight, Nat.shiftRight_eq_div_pow]
    rfl
  rw [← hshift, ← hshift]
  exact ⟨eq_of_toNat_eq, fun h => by rw [h]⟩

theorem pteValidMask_frame : pteValidMask pat pge >>> 12 = 0xFFFFF := by
  cases pat <;> cases pge <;> decide

theorem map_page_frame (phys flags : BitVec 32) (hflags : flags >>> 12 = 0) :
    frame (mapPage (pteValidMask pat pge) phys flags) = frame phys := by
  rw [frame_eq_iff]
  unfold mapPage
  rw [ushiftRight_and_distrib, ushiftRight_or_distrib, hflags, pteValidMask_frame]
  apply eq_of_getLsbD_eq
  intro i hi
  have hmask : (0xFFFFF : BitVec 32).getLsbD i = decide (i < 20) := by
    revert i
    decide
  rw [getLsbD_and, hmask, getLsbD_or, getLsbD_ushiftRight]
  by_cases h20 : i < 20
  · simp [h20]
  · have hhigh : phys.getLsbD (12 + i) = false := getLsbD_of_ge _ _ (by omega)
    simp [h20, hhigh]

theorem pteValidMask_low (i : Nat) (hi : i < 3 ∨ 12 ≤ i ∧ i < 32) : (pteValidMask pat pge).getLsbD i = true := by
  have hall : ∀ pat pge : Bool, ∀ i : Fin 32, i.val < 3 ∨ 12 ≤ i.val →
      (pteValidMask pat pge).getLsbD i.val = true := by decide
  exact hall pat pge ⟨i, by omega⟩ (by show i < 3 ∨ 12 ≤ i; omega)

theorem map_page_uwr {phys : BitVec 32} (hphys : phys.toNat % 4096 = 0) :
    (mapPage (pteValidMask pat pge) phys pgUwr).toNat = phys.toNat + 7 := by
  have hlow : ∀ i, i < 12 → phys.getLsbD i = false := by
    intro i hi
    rw [BitVec.getLsbD, show phys.toNat = 2 ^ 12 * (phys.toNat / 4096) by omega, Nat.testBit_two_pow_mul]
    simp [hi]
  have hmask : mapPage (pteValidMask pat pge) phys pgUwr = phys ||| pgUwr := by
    apply eq_of_getLsbD_eq
    intro i hi
    unfold mapPage
    rw [getLsbD_and]
    by_cases hvalid : i < 3 ∨ 12 ≤ i ∧ i < 32
    · rw [pteValidMask_low pat pge i hvalid, Bool.and_true]
    · have huwr : ∀ i : Fin 32, 3 ≤ i.val → pgUwr.getLsbD i.val = false := by decide
      have hoff : pgUwr.getLsbD i = false := huwr ⟨i, hi⟩ (by show 3 ≤ i; omega)
      rw [getLsbD_or, hlow i (by omega), hoff]
      rfl
  rw [hmask, toNat_or, show phys.toNat = 2 ^ 12 * (phys.toNat / 4096) by omega]
  exact (Nat.two_pow_add_eq_or_of_lt (by decide) _).symm

end Kolibri.Paging
