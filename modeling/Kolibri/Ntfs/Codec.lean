import Kolibri.Ntfs.Code

/-! # The bytes of a run

The sign of each field is in its last byte.
-/

namespace Kolibri.Ntfs

open Buffer BitVec Nat

/-! ## Widths -/

theorem widthLoop_pos (fuel : Nat) (eax : BitVec 32) : 1 ≤ widthLoop (fuel + 1) eax := by
  unfold widthLoop
  dsimp only
  split_ifs <;> omega

theorem widthLoop_le (fuel : Nat) (eax : BitVec 32) : widthLoop fuel eax ≤ fuel := by
  induction fuel generalizing eax with
  | zero => exact le_refl _
  | succ fuel ih =>
    unfold widthLoop
    dsimp only
    have := ih (eax >>> 8)
    split_ifs <;> omega

theorem getLsbD_of_widthLoop_le {fuel : Nat} {eax : BitVec 32} (hfuel : eax.toNat < 2 ^ (8 * fuel)) {j : Nat}
    (hj : 8 * widthLoop fuel eax ≤ j) : eax.getLsbD j = false := by
  induction fuel generalizing eax j with
  | zero =>
    have hzero : eax = 0 := eq_of_toNat_eq (by simpa using hfuel)
    rw [hzero]
    exact getLsbD_zero
  | succ fuel ih =>
    have hwidth := widthLoop_pos fuel eax
    have hshift : eax.getLsbD j = (eax >>> 8).getLsbD (j - 8) := by
      rw [getLsbD_ushiftRight, show 8 + (j - 8) = j by omega]
    rw [hshift]
    unfold widthLoop at hj
    dsimp only at hj
    split_ifs at hj with hempty
    · rw [hempty]
      exact getLsbD_zero
    · apply ih
      · rw [toNat_ushiftRight, shiftRight_eq_div_pow, div_lt_iff_lt_mul (by decide), ← pow_add]
        rwa [show 8 * fuel + 8 = 8 * (fuel + 1) by omega]
      · omega

theorem mcbSizeWidth_bounds (size : BitVec 32) : 1 ≤ mcbSizeWidth size ∧ mcbSizeWidth size ≤ 4 :=
  ⟨widthLoop_pos 3 _, widthLoop_le 4 _⟩

theorem mcbStartWidth_bounds (start : BitVec 32) : 1 ≤ mcbStartWidth start ∧ mcbStartWidth start ≤ 4 :=
  ⟨widthLoop_pos 3 _, widthLoop_le 4 _⟩

theorem getLsbD_size {size : BitVec 32} {j : Nat} (hj : 8 * mcbSizeWidth size ≤ j + 1) (hlt : j < 31) :
    size.getLsbD j = false := by
  have hclear := getLsbD_of_widthLoop_le (size <<< 1).isLt hj
  rw [getLsbD_shiftLeft] at hclear
  simpa [show j + 1 < 32 by omega] using hclear

theorem getLsbD_start {start : BitVec 32} {j : Nat} (hj : 8 * mcbStartWidth start ≤ j + 1) (hlt : j < 32) :
    start.getLsbD j = start.getLsbD 31 := by
  rcases lt_or_eq_of_le (le_of_lt_succ hlt) with hlt | rfl
  · have hclear := getLsbD_of_widthLoop_le (BitVec.isLt _) hj
    split_ifs at hclear with hneg
    · rw [hneg, getLsbD_eq_getElem (by omega)]
      simpa [show j + 1 < 32 by omega] using hclear
    · rw [Bool.not_eq_true] at hneg
      rw [hneg, getLsbD_eq_getElem (by omega)]
      simpa [show j + 1 < 32 by omega] using hclear
  · rfl

/-! ## One run -/

def runBytes (start size : BitVec 32) : List (BitVec 8) :=
  mcbHeader (mcbStartWidth start) (mcbSizeWidth size) ::
    (leBytes (mcbSizeWidth size) size ++ leBytes (mcbStartWidth start) start)

@[simp] theorem length_runBytes (start size : BitVec 32) :
    (runBytes start size).length = 1 + mcbSizeWidth size + mcbStartWidth start := by
  simp [runBytes]
  omega

theorem overlay_runBytes (bytes : Nat → BitVec 8) (off : Nat) (start size : BitVec 32) :
    overlay bytes off (runBytes start size ++ [0]) =
      overlay (overlay (overlay (overlay bytes off [mcbHeader (mcbStartWidth start) (mcbSizeWidth size)])
        (off + 1) (leBytes (mcbSizeWidth size) size)) (off + 1 + mcbSizeWidth size)
          (leBytes (mcbStartWidth start) start)) (off + 1 + mcbSizeWidth size + mcbStartWidth start) [0] := by
  have hrun : runBytes start size ++ [0] = [mcbHeader (mcbStartWidth start) (mcbSizeWidth size)] ++
      (leBytes (mcbSizeWidth size) size ++ (leBytes (mcbStartWidth start) start ++ [0])) := by simp [runBytes]
  rw [hrun, overlay_append bytes, overlay_append _ _ (leBytes _ size), overlay_append _ _ (leBytes _ start),
    length_leBytes, length_leBytes, List.length_singleton]

theorem writeRun_spec {start size : BitVec 32} {frs frs' : Buffer} {attrOff destOff : Nat} {needCld : Bool}
    {r : CreateMcbResult} (h : writeRun start size frs attrOff destOff needCld = some (r, frs')) :
    r.destOff = destOff + (runBytes start size).length ∧ r.needCld = needCld ∧ r.wrote = true ∧ r.destOff < frs.len ∧
      frs' = { frs with bytes := overlay frs.bytes destOff (runBytes start size ++ [0]) } := by
  unfold writeRun at h
  simp only [Option.bind_eq_bind, Option.bind_eq_some_iff] at h
  obtain ⟨frs1, hheader, frs2, hsize, frs3, hstart, frs4, hend, sizeWithHeader, -, recordRealSize, -, heq⟩ := h
  cases heq
  obtain ⟨-, rfl⟩ := set?_eq_some hheader
  obtain rfl := writeLeBytes_eq_some hsize
  obtain rfl := writeLeBytes_eq_some hstart
  obtain ⟨hlt, rfl⟩ := set?_eq_some hend
  refine ⟨by simp; omega, rfl, rfl, hlt, ?_⟩
  rw [overlay_runBytes]

theorem mcbHeader_spec {startW sizeW : Nat} (hstart : 1 ≤ startW ∧ startW ≤ 4) (hsize : 1 ≤ sizeW ∧ sizeW ≤ 4) :
    mcbHeader startW sizeW ≠ 0 ∧ (mcbHeader startW sizeW &&& 0x0F).toNat = sizeW ∧
      (mcbHeader startW sizeW >>> 4).toNat = startW := by
  obtain ⟨hs1, hs4⟩ := hstart
  obtain ⟨hz1, hz4⟩ := hsize
  interval_cases startW <;> interval_cases sizeW <;> decide

theorem sign_byte_iff (b : BitVec 8) : 0x80 ≤ b ↔ b.getLsbD 7 = true := by
  revert b
  decide +kernel

section Decode

variable {start size : BitVec 32} {entry : Nat → BitVec 8} {len : Nat}

section

variable (h : Stands entry 0 (runBytes start size))
include h

theorem stands_fields : Stands entry 1 (leBytes (mcbSizeWidth size) size ++ leBytes (mcbStartWidth start) start) :=
  @Stands.append_right 0 entry [mcbHeader (mcbStartWidth start) (mcbSizeWidth size)] _ h

theorem size_byte {i : Nat} (hi : i < mcbSizeWidth size) : entry (1 + i) = (size >>> (8 * i)).setWidth 8 := by
  have hbyte := (stands_fields h).append_left i (by simpa using hi)
  rwa [getElem_leBytes] at hbyte

theorem start_byte {i : Nat} (hi : i < mcbStartWidth start) :
    entry (1 + mcbSizeWidth size + i) = (start >>> (8 * i)).setWidth 8 := by
  have hbyte := (stands_fields h).append_right i (by simpa using hi)
  rwa [getElem_leBytes, length_leBytes] at hbyte

theorem size_sign_iff : 0x80 ≤ entry (mcbSizeWidth size) ↔ size.getLsbD (8 * mcbSizeWidth size - 1) = true := by
  obtain ⟨hw1, hw4⟩ := mcbSizeWidth_bounds size
  have hbyte := @size_byte _ _ _ h (mcbSizeWidth size - 1) (by omega)
  rw [show 1 + (mcbSizeWidth size - 1) = mcbSizeWidth size by omega] at hbyte
  rw [sign_byte_iff, hbyte, getLsbD_setWidth, getLsbD_ushiftRight,
    show 8 * (mcbSizeWidth size - 1) + 7 = 8 * mcbSizeWidth size - 1 by omega]
  simp

theorem start_sign_iff :
    0x80 ≤ entry (1 + mcbSizeWidth size + mcbStartWidth start - 1) ↔ start.getLsbD 31 = true := by
  obtain ⟨hw1, hw4⟩ := mcbStartWidth_bounds start
  have hbyte := @start_byte _ _ _ h (mcbStartWidth start - 1) (by omega)
  rw [show 1 + mcbSizeWidth size + (mcbStartWidth start - 1) = 1 + mcbSizeWidth size + mcbStartWidth start - 1 by omega]
    at hbyte
  rw [sign_byte_iff, hbyte, getLsbD_setWidth, getLsbD_ushiftRight,
    show 8 * (mcbStartWidth start - 1) + 7 = 8 * mcbStartWidth start - 1 by omega,
    @getLsbD_start start (8 * mcbStartWidth start - 1) (by omega) (by omega)]
  simp

theorem cluster_eq :
    (if start.getLsbD 31 = true then
        leValue entry (1 + mcbSizeWidth size) (mcbStartWidth start) ||| BitVec.allOnes 64 <<< (8 * mcbStartWidth start)
      else leValue entry (1 + mcbSizeWidth size) (mcbStartWidth start)) = start.signExtend 64 := by
  obtain ⟨hw1, hw4⟩ := mcbStartWidth_bounds start
  have hvalue {j : Nat} (hj : j < 64) : (leValue entry (1 + mcbSizeWidth size) (mcbStartWidth start)).getLsbD j =
      (decide (j < 8 * mcbStartWidth start) && (start.signExtend 64).getLsbD j) := by
    apply getLsbD_leValue_of_bytes _ hj
    intro i hi
    rw [start_byte h hi]
    ext k hk
    simp [getElem_signExtend, hk, show 8 * i + k < 32 by omega, show 8 * i + k < 64 by omega]
  have hsign {j : Nat} (hj : j < 64) (hge : 8 * mcbStartWidth start ≤ j) :
      (start.signExtend 64).getLsbD j = start.getLsbD 31 := by
    rw [getLsbD_signExtend, decide_eq_true hj, Bool.true_and]
    split_ifs with hlt
    · exact getLsbD_start (by omega) hlt
    · exact msb_eq_getLsbD_last start
  apply eq_of_getLsbD_eq
  intro j hj
  by_cases hlt : j < 8 * mcbStartWidth start
  · split_ifs
    · rw [getLsbD_or, hvalue hj, getLsbD_shiftLeft]
      simp [hlt]
    · rw [hvalue hj]
      simp [hlt]
  rw [hsign hj (by omega)]
  split_ifs with hneg
  · have hones : (BitVec.allOnes 64 <<< (8 * mcbStartWidth start)).getLsbD j = true := by
      rw [getLsbD_shiftLeft, getLsbD_allOnes]
      simp [hj, hlt, show j - 8 * mcbStartWidth start < 64 by omega]
    rw [hneg, getLsbD_or, hones, Bool.or_true]
  · rw [hvalue hj, decide_eq_false hlt, Bool.false_and]
    rw [Bool.not_eq_true] at hneg
    exact hneg.symm

theorem ntfsDecodeMcbEntry_run (hlen : (runBytes start size).length ≤ len)
    (buf : Nat → BitVec 8) :
    if size.getLsbD (8 * mcbSizeWidth size - 1) = true then (ntfsDecodeMcbEntry entry len buf).1.more = false
    else ∃ buf', ntfsDecodeMcbEntry entry len buf = (⟨true, (runBytes start size).length⟩, buf') ∧
      leValue buf' 0 8 = leValue entry 1 (mcbSizeWidth size) ∧ leValue buf' 8 8 = start.signExtend 64 := by
  have hsizeW := mcbSizeWidth_bounds size
  have hstartW := mcbStartWidth_bounds start
  obtain ⟨hheader, hlow, hhigh⟩ := mcbHeader_spec hstartW hsizeW
  have hentry : entry 0 = mcbHeader (mcbStartWidth start) (mcbSizeWidth size) := h 0 (by simp)
  rw [length_runBytes] at hlen ⊢
  have hlen0 : ¬ len = 0 := by omega
  have hw8 : ¬ 8 < mcbSizeWidth size := by omega
  have hlen1 : ¬ len < 1 + mcbSizeWidth size := by omega
  have hw0 : ¬ mcbSizeWidth size = 0 := by omega
  have hs8 : ¬ 8 < mcbStartWidth start := by omega
  have hlen2 : ¬ len < 1 + mcbSizeWidth size + mcbStartWidth start := by omega
  have hs0 : ¬ mcbStartWidth start = 0 := by omega
  have hs8' : mcbStartWidth start < 8 := by omega
  unfold ntfsDecodeMcbEntry
  simp only [hentry, hlow, hhigh, hheader, hlen0, hw8, hlen1, hw0, if_false, size_sign_iff h, hs8, hlen2, hs0, hs8',
    start_sign_iff h, and_true, cluster_eq h]
  split_ifs
  · rfl
  · refine ⟨_, rfl, ?_, leValue_overlay ..⟩
    rw [leValue_congr fun i hi => overlay_of_lt _ _ (by omega), leValue_overlay]
    exact leValue_congr fun i hi => by rw [zero_add, if_pos hi]

theorem getLsbD_size_value {j : Nat} (hj : j < 64) :
    (leValue entry 1 (mcbSizeWidth size)).getLsbD j =
      (decide (j < 8 * mcbSizeWidth size) && (size.setWidth 64).getLsbD j) := by
  obtain ⟨hw1, hw4⟩ := mcbSizeWidth_bounds size
  apply getLsbD_leValue_of_bytes _ hj
  intro i hi
  rw [size_byte h hi]
  ext k hk
  simp [hk, show 8 * i + k < 64 by omega]

end

theorem getLsbD_size_of_lt (hsize : size.toNat < 2 ^ 31) {j : Nat} (hj : 8 * mcbSizeWidth size ≤ j + 1) :
    size.getLsbD j = false := by
  rcases Nat.lt_or_ge j 31 with hlt | hge
  · exact getLsbD_size hj hlt
  · rw [← testBit_toNat]
    exact Nat.testBit_lt_two_pow (Nat.lt_of_lt_of_le hsize (Nat.pow_le_pow_right (by decide) hge))

theorem ntfsDecodeMcbEntry_of_lt (h : Stands entry 0 (runBytes start size))
    (hlen : (runBytes start size).length ≤ len) (hsize : size.toNat < 2 ^ 31) (buf : Nat → BitVec 8) :
    ∃ buf', ntfsDecodeMcbEntry entry len buf = (⟨true, (runBytes start size).length⟩, buf') ∧
      leValue buf' 0 8 = size.setWidth 64 ∧ leValue buf' 8 8 = start.signExtend 64 := by
  have hrun := ntfsDecodeMcbEntry_run h hlen buf
  rw [getLsbD_size_of_lt hsize (by omega), if_neg Bool.false_ne_true] at hrun
  obtain ⟨buf', hdecode, hrunsize, hcluster⟩ := hrun
  refine ⟨buf', hdecode, ?_, hcluster⟩
  apply eq_of_getLsbD_eq
  intro j hj
  rw [hrunsize, getLsbD_size_value h hj]
  by_cases hlt : j < 8 * mcbSizeWidth size
  · rw [decide_eq_true hlt, Bool.true_and]
  · rw [decide_eq_false hlt, Bool.false_and, getLsbD_setWidth, getLsbD_size_of_lt hsize (by omega), Bool.and_false]

theorem lt_of_ntfsDecodeMcbEntry (h : Stands entry 0 (runBytes start size))
    (hlen : (runBytes start size).length ≤ len) (buf : Nat → BitVec 8)
    (hmore : (ntfsDecodeMcbEntry entry len buf).1.more = true)
    (hvalue : leValue (ntfsDecodeMcbEntry entry len buf).2 0 8 = size.setWidth 64) : size.toNat < 2 ^ 31 := by
  obtain ⟨hw1, hw4⟩ := mcbSizeWidth_bounds size
  have hrun := ntfsDecodeMcbEntry_run h hlen buf
  split_ifs at hrun with hsign
  · rw [hrun] at hmore
    cases hmore
  obtain ⟨buf', hdecode, hrunsize, -⟩ := hrun
  rw [hdecode] at hvalue
  have hbit : size.getLsbD 31 = false := by
    by_cases hw : mcbSizeWidth size = 4
    · rw [hw] at hsign
      exact Bool.eq_false_iff.mpr hsign
    · have hvalue31 := getLsbD_size_value h (by decide : 31 < 64)
      rw [← hrunsize, hvalue, decide_eq_false (by omega), Bool.false_and, getLsbD_setWidth] at hvalue31
      simpa using hvalue31
  have hmsb : size.msb = false := (msb_eq_getLsbD_last size).trans hbit
  have hlt := msb_eq_false_iff_two_mul_lt.mp hmsb
  omega

end Decode

end Kolibri.Ntfs
