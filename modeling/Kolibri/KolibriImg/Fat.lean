import Kolibri.KolibriImg.Code

/-! # Entries of the FAT

An entry is a stretch of 12 or 16 bits at a multiple of that width.
-/

namespace Kolibri.KolibriImg

open Outcome Bytes BitVec Nat

/-! ## Bits of one word -/

namespace FatKind

variable (kind : FatKind)

def width : FatKind → Nat
  | fat12 => 12
  | fat16 => 16

def shift (cluster : Nat) : FatKind → Nat
  | fat12 => 4 * (cluster % 2)
  | fat16 => 0

theorem entryOffset_bits (c : Nat) : 8 * kind.entryOffset c + kind.shift c = kind.width * c := by
  cases kind <;> simp only [entryOffset, shift, width] <;> omega

theorem shift_add_width (c : Nat) : kind.shift c + kind.width ≤ 16 := by
  cases kind <;> simp only [shift, width] <;> omega

theorem getLsbD_entry (c : Nat) (word : BitVec 16) (j : Nat) :
    (kind.entry c word).getLsbD j = (decide (j < kind.width) && word.getLsbD (kind.shift c + j)) := by
  cases kind with
  | fat12 =>
    rcases mod_two_eq_zero_or_one c with h | h
    · simp only [entry, shift, width, h, if_true, getLsbD_and, mul_zero, zero_add]
      rw [Bool.and_comm]
      by_cases hj : j < 12
      · interval_cases j <;> simp
      · rcases lt_or_ge j 16 with h16 | h16
        · interval_cases j <;> simp_all
        · simp [getLsbD_of_ge _ j h16]
    · simp only [entry, shift, width, h, if_neg (by decide : ¬ 1 = 0), getLsbD_ushiftRight, mul_one]
      by_cases hj : j < 12
      · simp [hj]
      · simp [hj, getLsbD_of_ge word (4 + j) (by omega)]
  | fat16 =>
    simp only [entry, shift, width, zero_add]
    by_cases hj : j < 16
    · simp [hj]
    · simp [getLsbD_of_ge word j (by omega)]

theorem getLsbD_patch (c : Nat) (word value : BitVec 16) {j : Nat} (hj : j < 16) :
    (kind.patch c word value).getLsbD j =
      if kind.shift c ≤ j ∧ j < kind.shift c + kind.width then value.getLsbD (j - kind.shift c)
      else word.getLsbD j := by
  cases kind with
  | fat12 =>
    rcases mod_two_eq_zero_or_one c with h | h
    · simp only [patch, shift, width, h]
      interval_cases j <;> simp
    · simp only [patch, shift, width, h]
      interval_cases j <;> simp
  | fat16 => simp [patch, shift, width, hj]

theorem width_le (kind : FatKind) : kind.width ≤ 16 := by
  cases kind <;> decide

theorem eocMin_le_eocValue (kind : FatKind) : kind.eocMin ≤ kind.eocValue := by
  cases kind <;> decide

theorem eocMin_lt (kind : FatKind) : kind.eocMin < 2 ^ 16 := by
  cases kind <;> decide

theorem eocValue_ne_zero (kind : FatKind) : kind.eocValue ≠ 0 := by
  cases kind <;> decide

theorem eocValue_lt (kind : FatKind) : kind.eocValue < 2 ^ kind.width := by
  cases kind <;> decide

end FatKind

/-! ## Entries of an image -/

def bitAt (bytes : Nat → BitVec 8) (p : Nat) : Bool := (bytes (p / 8)).getLsbD (p % 8)

namespace Image

variable {img img' : Image} {c d v i : Nat}

def wordAt (img : Image) (c : Nat) : Nat := img.bpb.fatOffset + img.bpb.fatKind.entryOffset c

def bitOf (img : Image) (c : Nat) : Nat := 8 * img.bpb.fatOffset + img.bpb.fatKind.width * c

def fatWord (img : Image) (c : Nat) : BitVec 16 :=
  img.bpb.fatKind.entry c (readU16 img.data.bytes (img.wordAt c))

def fatEntry (img : Image) (c : Nat) : Nat := (img.fatWord c).toNat

def InFat (img : Image) (c : Nat) : Prop :=
  img.bpb.fatKind.entryOffset c + 1 < img.bpb.fatSize ∧ img.wordAt c + 1 < img.data.len

def setEntry (img : Image) (c v : Nat) : Image :=
  let word := img.bpb.fatKind.patch c (readU16 img.data.bytes (img.wordAt c)) (BitVec.ofNat 16 v)
  { img with data.bytes := writeU16 img.data.bytes (img.wordAt c) word }

@[simp] theorem setEntry_bpb (img : Image) (c v : Nat) : (img.setEntry c v).bpb = img.bpb := rfl

@[simp] theorem setEntry_bitOf (img : Image) (c v d : Nat) : (img.setEntry c v).bitOf d = img.bitOf d := rfl

theorem fatGet_eq_ok : img.fatGet c = .ok v ↔ img.InFat c ∧ v = img.fatEntry c := by
  unfold fatGet
  simp only [bind_eq_ok, within_eq_ok, require_eq_ok, Except.ok.injEq, exists_const, InFat, wordAt]
  constructor
  · rintro ⟨-, hfat, hlen, rfl⟩
    exact ⟨⟨hfat, hlen⟩, rfl⟩
  · rintro ⟨⟨hfat, hlen⟩, rfl⟩
    exact ⟨by omega, hfat, hlen, rfl⟩

theorem fatSet_eq_ok : img.fatSet c v = .ok img' ↔ img.wordAt c + 1 < img.data.len ∧ img' = img.setEntry c v := by
  unfold fatSet
  simp only [bind_eq_ok, require_eq_ok, Except.ok.injEq, exists_const]
  exact and_congr_right fun _ => eq_comm

theorem setEntry_bytes (h : i < img.wordAt c ∨ img.wordAt c + 2 ≤ i) :
    (img.setEntry c v).data.bytes i = img.data.bytes i :=
  writeU16_of_outside _ _ h

theorem getLsbD_fatWord (img : Image) (c j : Nat) :
    (img.fatWord c).getLsbD j = (decide (j < img.bpb.fatKind.width) && bitAt img.data.bytes (img.bitOf c + j)) := by
  have hbits := img.bpb.fatKind.entryOffset_bits c
  have hend := img.bpb.fatKind.shift_add_width c
  unfold fatWord
  rw [FatKind.getLsbD_entry]
  by_cases hj : j < img.bpb.fatKind.width
  · rw [readU16_bit _ _ _ (by omega), bitAt, bitOf, wordAt, ← hbits]
    generalize img.bpb.fatKind.shift c = s
    rw [show (8 * img.bpb.fatOffset + (8 * img.bpb.fatKind.entryOffset c + s) + j) / 8 =
        img.bpb.fatOffset + img.bpb.fatKind.entryOffset c + (s + j) / 8 by omega,
      show (8 * img.bpb.fatOffset + (8 * img.bpb.fatKind.entryOffset c + s) + j) % 8 = (s + j) % 8 by omega]
  · simp [hj]

theorem bitAt_setEntry (img : Image) (c v p : Nat) :
    bitAt (img.setEntry c v).data.bytes p =
      if img.bitOf c ≤ p ∧ p < img.bitOf c + img.bpb.fatKind.width then (BitVec.ofNat 16 v).getLsbD (p - img.bitOf c)
      else bitAt img.data.bytes p := by
  have hbits := img.bpb.fatKind.entryOffset_bits c
  have hend := img.bpb.fatKind.shift_add_width c
  unfold bitAt setEntry
  simp only [writeU16_bit]
  by_cases hin : 8 * img.wordAt c ≤ p ∧ p < 8 * img.wordAt c + 16
  · rw [if_pos hin, FatKind.getLsbD_patch _ _ _ _ (by omega), readU16_bit _ _ _ (by omega)]
    unfold wordAt at hin
    by_cases hown : img.bitOf c ≤ p ∧ p < img.bitOf c + img.bpb.fatKind.width
    · unfold bitOf at hown
      rw [if_pos (by unfold wordAt; omega), if_pos (by unfold bitOf; omega)]
      unfold wordAt bitOf
      congr 1
      omega
    · rw [if_neg hown, if_neg (by unfold bitOf at hown; unfold wordAt; omega)]
      rw [show img.wordAt c + (p - 8 * img.wordAt c) / 8 = p / 8 by unfold wordAt; omega,
        show (p - 8 * img.wordAt c) % 8 = p % 8 by unfold wordAt; omega]
  · rw [if_neg hin, if_neg (by unfold bitOf; unfold wordAt at hin; omega)]

theorem fatEntry_setEntry_self (img : Image) (c v : Nat) :
    (img.setEntry c v).fatEntry c = v % 2 ^ img.bpb.fatKind.width := by
  have hle := img.bpb.fatKind.width_le
  have hword : (img.setEntry c v).fatWord c = BitVec.ofNat 16 (v % 2 ^ img.bpb.fatKind.width) := by
    apply eq_of_getLsbD_eq
    intro j hj
    rw [getLsbD_fatWord, bitAt_setEntry, setEntry_bpb, setEntry_bitOf]
    by_cases hlt : j < img.bpb.fatKind.width
    · rw [if_pos (by omega), Nat.add_sub_cancel_left, getLsbD_ofNat, getLsbD_ofNat, Nat.testBit_mod_two_pow]
      simp [hlt]
    · rw [decide_eq_false hlt, Bool.false_and, getLsbD_ofNat, Nat.testBit_mod_two_pow, decide_eq_false hlt,
        Bool.false_and, Bool.and_false]
  rw [fatEntry, hword, toNat_ofNat]
  apply Nat.mod_eq_of_lt
  calc v % 2 ^ img.bpb.fatKind.width < 2 ^ img.bpb.fatKind.width := Nat.mod_lt _ (Nat.two_pow_pos _)
    _ ≤ 2 ^ 16 := Nat.pow_le_pow_right (by omega) hle

theorem fatEntry_setEntry_of_ne (img : Image) (v : Nat) (h : d ≠ c) :
    (img.setEntry c v).fatEntry d = img.fatEntry d := by
  unfold fatEntry
  congr 1
  apply eq_of_getLsbD_eq
  intro j hj
  rw [getLsbD_fatWord, getLsbD_fatWord, bitAt_setEntry, setEntry_bpb, setEntry_bitOf]
  by_cases hlt : j < img.bpb.fatKind.width
  · rw [if_neg]
    -- the stretches of two entries do not meet
    · unfold bitOf
      rcases Nat.lt_or_gt_of_ne h with hdc | hdc
      · have := Nat.mul_le_mul_left img.bpb.fatKind.width (show d + 1 ≤ c by omega)
        rw [Nat.mul_add, Nat.mul_one] at this
        omega
      · have := Nat.mul_le_mul_left img.bpb.fatKind.width (show c + 1 ≤ d by omega)
        rw [Nat.mul_add, Nat.mul_one] at this
        omega
  · simp [hlt]

theorem fatEntry_congr (hbpb : img'.bpb = img.bpb)
    (h : ∀ i, img.wordAt c ≤ i → i < img.wordAt c + 2 → img'.data.bytes i = img.data.bytes i) :
    img'.fatEntry c = img.fatEntry c := by
  unfold fatEntry fatWord readU16
  have hword : img'.wordAt c = img.wordAt c := by rw [wordAt, wordAt, hbpb]
  rw [hword, hbpb, h _ (by omega) (by omega), h _ (by omega) (by omega)]

/-- **The entry of one cluster is set**, with the bits it has, and every other entry stays. -/
theorem fatSet_sets_entry (img img' : Image) (c v : Nat) (hfat : img.bpb.fatOffset + img.bpb.fatSize ≤ img.data.len)
    (hc : img.bpb.fatKind.entryOffset c + 1 < img.bpb.fatSize) (h : img.fatSet c v = .ok img') :
    img'.fatGet c = .ok (v % 2 ^ img.bpb.fatKind.width) ∧
      (∀ d, d ≠ c → img.bpb.fatKind.entryOffset d + 1 < img.bpb.fatSize → img'.fatGet d = img.fatGet d) ∧
      ∀ i, i < img.wordAt c ∨ img.wordAt c + 2 ≤ i → img'.data.bytes i = img.data.bytes i := by
  obtain ⟨-, rfl⟩ := fatSet_eq_ok.mp h
  have hin : ∀ d, img.bpb.fatKind.entryOffset d + 1 < img.bpb.fatSize → img.InFat d := by
    intro d hd
    refine ⟨hd, ?_⟩
    unfold wordAt
    omega
  refine ⟨fatGet_eq_ok.mpr ⟨hin c hc, (img.fatEntry_setEntry_self c v).symm⟩, fun d hne hd => ?_,
    fun i hi => setEntry_bytes hi⟩
  rw [fatGet_eq_ok.mpr ⟨hin d hd, rfl⟩]
  exact fatGet_eq_ok.mpr ⟨hin d hd, (img.fatEntry_setEntry_of_ne v hne).symm⟩

def blankImage : Image := ⟨⟨1024, fun _ => 0⟩, ⟨512, 1, 1, 1, 0, 2, 1⟩⟩

theorem fatSet_sets_entry_odd : ∃ img', blankImage.fatSet 3 0x1FF8 = .ok img' ∧ img'.fatGet 3 = .ok 0xFF8 :=
  ⟨_, rfl, (fatSet_sets_entry blankImage _ 3 0x1FF8 (by decide) (by decide) rfl).1⟩

end Image

end Kolibri.KolibriImg
