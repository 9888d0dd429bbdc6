import Mathlib

/-! # Windows on the screen (`window.rs`, `check_window_position`) -/

namespace Kolibri.WindowPosition

open BitVec

structure WindowBox where
  left : BitVec 32
  top : BitVec 32
  width : BitVec 32
  height : BitVec 32
  deriving DecidableEq

/-- The sizes are compared without sign, the end behind the addition with it. -/
def fix (start size display : BitVec 32) : BitVec 32 × BitVec 32 :=
  let size := if display ≤ size then display - 1 else size
  if start.toInt < 0 then (0, size)
  else if display.toInt ≤ (start + size).toInt then (display - size - 1, size)
  else (start, size)

def checkWindowPosition (box : WindowBox) (displayWidth displayHeight : BitVec 32) : WindowBox :=
  let (left, width) := fix box.left box.width displayWidth
  let (top, height) := fix box.top box.height displayHeight
  ⟨left, top, width, height⟩

def Fits (display : BitVec 32) (line : BitVec 32 × BitVec 32) : Prop :=
  0 ≤ line.1.toInt ∧ 0 ≤ line.2.toInt ∧ line.1.toInt + line.2.toInt < display.toInt

instance (display : BitVec 32) (line : BitVec 32 × BitVec 32) : Decidable (Fits display line) :=
  inferInstanceAs (Decidable (_ ∧ _))

def OnScreen (displayWidth displayHeight : BitVec 32) (box : WindowBox) : Prop :=
  Fits displayWidth (box.left, box.width) ∧ Fits displayHeight (box.top, box.height)

/-- The end of the cut line is below 2 ^ 31. -/
def Ends (display start size : BitVec 32) : Prop :=
  start.toInt + min size.toNat (display.toNat - 1) < 2 ^ 31

variable {start size display : BitVec 32} (hdisplay : 1 ≤ display.toNat ∧ display.toNat ≤ 32767)
include hdisplay

theorem fix_fits_iff : Fits display (fix start size display) ↔ Ends display start size := by
  unfold Fits fix Ends
  simp only [toInt_eq_toNat_cond]
  split_ifs <;> bv_omega

theorem fix_of_fits (h : Fits display (start, size)) : fix start size display = (start, size) := by
  unfold Fits at h
  unfold fix
  simp only [toInt_eq_toNat_cond] at h ⊢
  split_ifs at h ⊢ <;> bv_omega

theorem fix_of_not_ends (h : ¬ Ends display start size) :
    fix start size display = (start, if display ≤ size then display - 1 else size) := by
  unfold Ends at h
  unfold fix
  simp only [toInt_eq_toNat_cond] at h ⊢
  split_ifs at h ⊢ <;> bv_omega

theorem fix_fix : fix (fix start size display).1 (fix start size display).2 display = fix start size display := by
  by_cases hends : Ends display start size
  · exact fix_of_fits hdisplay ((fix_fits_iff hdisplay).mpr hends)
  have hcut : ¬ Ends display start (if display ≤ size then display - 1 else size) := by
    unfold Ends at hends ⊢
    split_ifs <;> bv_omega
  rw [fix_of_not_ends hdisplay hends, fix_of_not_ends hdisplay hcut]
  congr 1
  split_ifs <;> bv_omega

omit hdisplay

theorem check_window_position_on_screen_iff (displayWidth displayHeight : BitVec 32) (box : WindowBox)
    (hwidth : 1 ≤ displayWidth.toNat ∧ displayWidth.toNat ≤ 32767)
    (hheight : 1 ≤ displayHeight.toNat ∧ displayHeight.toNat ≤ 32767) :
    (OnScreen displayWidth displayHeight (checkWindowPosition box displayWidth displayHeight) ↔
        Ends displayWidth box.left box.width ∧ Ends displayHeight box.top box.height) ∧
      (OnScreen displayWidth displayHeight box → checkWindowPosition box displayWidth displayHeight = box) ∧
      checkWindowPosition (checkWindowPosition box displayWidth displayHeight) displayWidth displayHeight =
        checkWindowPosition box displayWidth displayHeight := by
  refine ⟨and_congr (fix_fits_iff hwidth) (fix_fits_iff hheight), fun h => ?_, ?_⟩
  · unfold checkWindowPosition
    rw [fix_of_fits hwidth h.1, fix_of_fits hheight h.2]
  · unfold checkWindowPosition
    rw [fix_fix hwidth, fix_fix hheight]

theorem check_window_position_on_screen_large :
    OnScreen 640 480 (checkWindowPosition ⟨600, -5, 100, 500⟩ 640 480) :=
  (check_window_position_on_screen_iff 640 480 ⟨600, -5, 100, 500⟩ (by decide) (by decide)).1.mpr (by unfold Ends; decide)

/-- The end of a window at 2 ^ 31 - 1 is below zero. -/
theorem check_window_position_off_screen :
    ¬ ∀ (displayWidth displayHeight : BitVec 32) (box : WindowBox),
      (1 ≤ displayWidth.toNat ∧ displayWidth.toNat ≤ 32767) → (1 ≤ displayHeight.toNat ∧ displayHeight.toNat ≤ 32767) →
      OnScreen displayWidth displayHeight (checkWindowPosition box displayWidth displayHeight) := by
  intro h
  have hfits := (h 640 480 ⟨0x7FFFFFFF, 0, 1, 1⟩ (by decide) (by decide)).1
  revert hfits
  decide

end Kolibri.WindowPosition
