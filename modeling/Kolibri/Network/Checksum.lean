import Kolibri.Lib.OnesComplement
import Kolibri.Lib.Registers

/-! # The Internet checksum (`checksum.rs`) -/

namespace Kolibri.Checksum

open Function OnesComplement Registers

/-! ## The code -/

def addDl (sum : BitVec 32) (byte : BitVec 8) (carryIn : Bool) : BitVec 32 × Bool :=
  let t : BitVec 16 := (low8 sum).setWidth 16 + byte.setWidth 16 + (BitVec.ofBool carryIn).setWidth 16
  (setLow8 sum (t.setWidth 8), 0xFF < t)

def adcDh (sum : BitVec 32) (byte : BitVec 8) (carryIn : Bool) : BitVec 32 × Bool :=
  let t : BitVec 16 := (high8 sum).setWidth 16 + byte.setWidth 16 + (BitVec.ofBool carryIn).setWidth 16
  (setHigh8 sum (t.setWidth 8), 0xFF < t)

def adcEdx (sum : BitVec 32) (carryIn : Bool) : BitVec 32 × Bool :=
  if carryIn then (sum + 1, BitVec.uaddOverflow sum 1) else (sum, false)

variable (data : Nat → BitVec 8)

/-- `adc dl, [esi+1]`, `adc dh, [esi]`: one word in network order. -/
def adcWord (ptr : Nat) (r : BitVec 32 × Bool) : BitVec 32 × Bool :=
  let (sum, cf) := addDl r.1 (data (ptr + 1)) r.2
  adcDh sum (data ptr) cf

def qwordRound (ptr : Nat) (sum : BitVec 32) : BitVec 32 × Bool :=
  let r := adcWord data (ptr + 6) (adcWord data (ptr + 4) (adcWord data (ptr + 2) (adcWord data ptr (sum, false))))
  adcEdx r.1 r.2

def qwordLoop (data : Nat → BitVec 8) : Nat → Nat → BitVec 32 → Bool → BitVec 32 × Bool
  | 0, _, sum, cf => (sum, cf)
  | ecx + 1, ptr, sum, _ =>
    let (sum, cf) := qwordRound data ptr sum
    qwordLoop data ecx (ptr + 8) sum cf

variable (sum : BitVec 32)

def rem4 (ptr : Nat) (doIt : Bool) : BitVec 32 × Nat :=
  if doIt then
    let r := adcWord data (ptr + 2) (adcWord data ptr (sum, false))
    ((adcEdx r.1 r.2).1, ptr + 4)
  else (sum, ptr)

def rem2 (ptr : Nat) (doIt : Bool) : BitVec 32 × Nat :=
  if doIt then
    let r := adcWord data ptr (sum, false)
    ((adcEdx r.1 r.2).1, ptr + 2)
  else (sum, ptr)

def finishOdd (ptr : Nat) (doIt : Bool) : BitVec 32 :=
  if doIt then
    let r := adcDh sum (data ptr) false
    (adcEdx r.1 r.2).1
  else sum

def checksum1 (data : Nat → BitVec 8) (length : Nat) : BitVec 32 :=
  let cfOdd := length % 2 ≠ 0
  let words := length / 2
  if words = 0 then finishOdd data sum 0 cfOdd
  else
    let cf2 := words % 2 ≠ 0
    let dwords := words / 2
    if dwords = 0 then
      let (sum, ptr) := rem2 data sum 0 cf2
      finishOdd data sum ptr cfOdd
    else
      let cf4 := dwords % 2 ≠ 0
      let qwords := dwords / 2
      let (sum, ptr) :=
        if qwords ≠ 0 then
          let (sum, cf) := qwordLoop data qwords 0 sum false
          ((adcEdx sum cf).1, 8 * qwords)
        else (sum, 0)
      let (sum, ptr) := rem4 data sum ptr cf4
      let (sum, ptr) := rem2 data sum ptr cf2
      finishOdd data sum ptr cfOdd

def checksum2 : BitVec 32 :=
  let edx := (sum &&& 0xFFFF#32) + sum >>> 16
  let dx : BitVec 16 := edx.setWidth 16 + (edx >>> 16).setWidth 16
  -- `not` leaves the flags of `test dx, dx`.
  let wasZero := dx = 0
  let dx := ~~~dx
  let dx := if wasZero then dx - 1 else dx
  (dx.rotateLeft 8).setWidth 32

/-! ## What it is for -/

def word (i : Nat) : Nat := 256 * (data (2 * i)).toNat + (data (2 * i + 1)).toNat

def wordSum (data : Nat → BitVec 8) : Nat → Nat
  | 0 => 0
  | n + 1 => wordSum data n + word data n

def writeField (i : Nat) (sum : BitVec 32) : Nat → BitVec 8 :=
  update (update data (2 * i) (sum.extractLsb' 0 8)) (2 * i + 1) (sum.extractLsb' 8 8)

theorem word_le (i : Nat) : word data i ≤ 65535 := by
  unfold word
  omega

/-! ## The chain of carries -/

theorem byte_sum_spec (a b : BitVec 8) (c : Bool) {t : BitVec 16}
    (ht : t = a.setWidth 16 + b.setWidth 16 + (BitVec.ofBool c).setWidth 16) :
    (t.setWidth 8).toNat = (a.toNat + b.toNat + c.toNat) % 256 ∧
      (decide (0xFF < t)).toNat = (a.toNat + b.toNat + c.toNat) / 256 := by
  have hc := c.toNat_lt
  have hsum : t.toNat = a.toNat + b.toNat + c.toNat := by
    rw [ht]
    simp only [BitVec.toNat_add, BitVec.toNat_setWidth, BitVec.toNat_ofBool]
    omega
  rw [BitVec.toNat_setWidth, hsum]
  refine ⟨rfl, ?_⟩
  by_cases hcarry : 0xFF < t
  · rw [decide_eq_true hcarry, Bool.toNat_true]
    rw [BitVec.lt_def, hsum] at hcarry
    have h255 : (0xFF : BitVec 16).toNat = 255 := rfl
    omega
  · rw [decide_eq_false hcarry, Bool.toNat_false]
    rw [BitVec.lt_def, hsum] at hcarry
    have h255 : (0xFF : BitVec 16).toNat = 255 := rfl
    omega

theorem adcWord_spec (i : Nat) (sum : BitVec 32) (c : Bool) :
    (adcWord data (2 * i) (sum, c)).1.toNat =
        sum.toNat / 65536 * 65536 + (sum.toNat % 65536 + c.toNat + word data i) % 65536 ∧
      (adcWord data (2 * i) (sum, c)).2.toNat = (sum.toNat % 65536 + c.toNat + word data i) / 65536 := by
  unfold adcWord addDl adcDh word
  dsimp only
  generalize hlow : (low8 sum).setWidth 16 + (data (2 * i + 1)).setWidth 16 + (BitVec.ofBool c).setWidth 16 = low
  obtain ⟨hlow8, hcarry⟩ := byte_sum_spec _ _ _ hlow.symm
  generalize decide (0xFF < low) = carry at hcarry
  rw [toNat_low8] at hlow8 hcarry
  generalize hhigh : (high8 (setLow8 sum (low.setWidth 8))).setWidth 16 + (data (2 * i)).setWidth 16 +
    (BitVec.ofBool carry).setWidth 16 = high
  obtain ⟨hhigh8, hout⟩ := byte_sum_spec _ _ _ hhigh.symm
  rw [toNat_high8, toNat_setLow8] at hhigh8 hout
  rw [toNat_setHigh8, toNat_setLow8, hhigh8, hout]
  omega

def value (r : BitVec 32 × Bool) : Nat := r.1.toNat % 65536 + r.2.toNat

/-- The low half is the sum `n` with its carries, the high half that of the seed. -/
def Holds (seed : BitVec 32) (n : Nat) (sum : BitVec 32) : Prop :=
  sum.toNat % 65536 = fold 65535 (seed.toNat % 65536 + n) ∧ sum.toNat / 65536 = seed.toNat / 65536

/-- The same before `adc edx, 0`. -/
def Chained (seed : BitVec 32) (n : Nat) (r : BitVec 32 × Bool) : Prop :=
  value r = fold 65535 (seed.toNat % 65536 + n) ∧ r.1.toNat / 65536 = seed.toNat / 65536

def Summed (seed : BitVec 32) (data : Nat → BitVec 8) (i : Nat) (sum : BitVec 32) : Prop :=
  Holds seed (wordSum data i) sum

variable {seed : BitVec 32} {data : Nat → BitVec 8} {i n : Nat} {sum : BitVec 32} {r : BitVec 32 × Bool}
  {data : Nat → BitVec 8} {f i n : Nat}

theorem Holds.chained (h : Holds seed n sum) : Chained seed n (sum, false) :=
  ⟨by simpa [value] using h.1, h.2⟩

theorem Chained.next (h : Chained seed n r) (data : Nat → BitVec 8) (i : Nat) :
    Chained seed (n + word data i) (adcWord data (2 * i) r) := by
  have hle := fold_le (by omega : 0 < 65535) (seed.toNat % 65536 + n)
  obtain ⟨sum, c⟩ := r
  obtain ⟨hvalue, hhigh⟩ := h
  obtain ⟨hsum, hcarry⟩ := adcWord_spec data i sum c
  have hadd := digit_add_carry (hvalue.trans_le hle) (word_le data i)
  dsimp only at hhigh
  refine ⟨?_, by omega⟩
  rw [← Nat.add_assoc, ← fold_fold_add, ← hvalue, ← hadd]
  unfold value
  dsimp only
  omega

theorem Chained.holds (h : Chained seed n r) : Holds seed n (adcEdx r.1 r.2).1 ∧ (adcEdx r.1 r.2).2 = false := by
  have hle := fold_le (by omega : 0 < 65535) (seed.toNat % 65536 + n)
  obtain ⟨hvalue, hhigh⟩ := h
  unfold adcEdx Holds
  unfold value at hvalue
  cases hc : r.2 with
  | false =>
    rw [hc] at hvalue
    exact ⟨⟨hvalue, hhigh⟩, rfl⟩
  | true =>
    rw [hc, Bool.toNat_true] at hvalue
    rw [if_pos rfl]
    have hone : (1 : BitVec 32).toNat = 1 := rfl
    rw [BitVec.toNat_add, hone, BitVec.uaddOverflow, hone]
    exact ⟨⟨by omega, by omega⟩, decide_eq_false (by omega)⟩

theorem Summed.qwordRound (h : Summed seed data (4 * i) sum) :
    Summed seed data (4 * (i + 1)) (qwordRound data (8 * i) sum).1 ∧ (qwordRound data (8 * i) sum).2 = false := by
  have hchain := (((h.chained.next data (4 * i)).next data (4 * i + 1)).next data (4 * i + 2)).next data (4 * i + 3)
  rw [show 2 * (4 * i) = 8 * i by omega, show 2 * (4 * i + 1) = 8 * i + 2 by omega,
    show 2 * (4 * i + 2) = 8 * i + 4 by omega, show 2 * (4 * i + 3) = 8 * i + 6 by omega] at hchain
  exact hchain.holds

theorem Summed.qwordLoop (h : Summed seed data (4 * i) sum) :
    Summed seed data (4 * (i + n)) (qwordLoop data n (8 * i) sum false).1 ∧
      (qwordLoop data n (8 * i) sum false).2 = false := by
  induction n generalizing i sum with
  | zero => exact ⟨h, rfl⟩
  | succ n ih =>
    obtain ⟨hround, hcarry⟩ := h.qwordRound
    unfold Checksum.qwordLoop
    dsimp only
    rw [hcarry, show i + (n + 1) = i + 1 + n by omega]
    exact ih hround

theorem Summed.rem4 {sum : BitVec 32} {doIt : Bool} (h : Summed seed data i sum) :
    Summed seed data (i + 2 * doIt.toNat) (rem4 data sum (2 * i) doIt).1 ∧
      (rem4 data sum (2 * i) doIt).2 = 2 * (i + 2 * doIt.toNat) := by
  cases doIt with
  | false => exact ⟨h, rfl⟩
  | true =>
    have hchain := (h.chained.next data i).next data (i + 1)
    exact ⟨hchain.holds.1, rfl⟩

theorem Summed.rem2 {sum : BitVec 32} {doIt : Bool} (h : Summed seed data i sum) :
    Summed seed data (i + doIt.toNat) (rem2 data sum (2 * i) doIt).1 ∧
      (rem2 data sum (2 * i) doIt).2 = 2 * (i + doIt.toNat) := by
  cases doIt with
  | false => exact ⟨h, rfl⟩
  | true => exact ⟨(h.chained.next data i).holds.1, rfl⟩

theorem adcDh_eq (sum : BitVec 32) (b : BitVec 8) (i : Nat) :
    adcDh sum b false = adcWord (fun j => if j = 2 * i then b else 0) (2 * i) (sum, false) := by
  have hsame : setLow8 sum (low8 sum) = sum := by
    apply BitVec.eq_of_toNat_eq
    rw [toNat_setLow8, toNat_low8]
    omega
  have hdl : addDl sum 0#8 false = (sum, false) := by
    have ht : (low8 sum).setWidth 16 + (0#8).setWidth 16 + (BitVec.ofBool false).setWidth 16 =
        (low8 sum).setWidth 16 := by simp
    unfold addDl
    dsimp only
    rw [ht, BitVec.setWidth_setWidth_of_le _ (by omega), BitVec.setWidth_eq, hsame]
    refine Prod.ext rfl (decide_eq_false ?_)
    bv_omega
  simp [adcWord, hdl]

theorem Summed.finishOdd {sum : BitVec 32} {doIt : Bool} (h : Summed seed data i sum) :
    Holds seed (wordSum data i + if doIt then 256 * (data (2 * i)).toNat else 0) (finishOdd data sum (2 * i) doIt) := by
  cases doIt with
  | false => exact h
  | true =>
    have hchain := h.chained.next (fun j => if j = 2 * i then data (2 * i) else 0) i
    rw [← adcDh_eq] at hchain
    have hword : word (fun j => if j = 2 * i then data (2 * i) else 0) i = 256 * (data (2 * i)).toNat := by simp [word]
    rw [hword] at hchain
    exact hchain.holds.1

theorem toNat_decide_odd (n : Nat) : (decide (n % 2 ≠ 0)).toNat = n % 2 := by
  rcases Nat.mod_two_eq_zero_or_one n with h | h <;> simp [h]

/-- The sum of the words of a string. A trailing byte is the high byte of a word. -/
def textSum (data : Nat → BitVec 8) (length : Nat) : Nat :=
  wordSum data (length / 2) + if length % 2 ≠ 0 then 256 * (data (2 * (length / 2))).toNat else 0

theorem checksum1_spec (seed : BitVec 32) (data : Nat → BitVec 8) (length : Nat) :
    Holds seed (textSum data length) (checksum1 seed data length) := by
  have hstart : Summed seed data 0 seed := by
    have hfold := fold_eq_self (m := 65535) (n := seed.toNat % 65536) (by omega)
    exact ⟨hfold.symm, rfl⟩
  have hend : ∀ {sum : BitVec 32}, Summed seed data (length / 2) sum →
      Holds seed (textSum data length) (finishOdd data sum (2 * (length / 2)) (length % 2 ≠ 0)) := by
    intro sum h
    have hodd := @Summed.finishOdd seed data _ sum (decide (length % 2 ≠ 0)) h
    simp only [decide_eq_true_eq] at hodd
    exact hodd
  unfold checksum1
  dsimp only
  generalize length / 2 = n at hend ⊢
  have h2 := toNat_decide_odd n
  have h4 := toNat_decide_odd (n / 2)
  by_cases hwords : n = 0
  · rw [if_pos hwords]
    rw [hwords] at hend
    exact hend hstart
  rw [if_neg hwords]
  by_cases hdwords : n / 2 = 0
  · rw [if_pos hdwords]
    obtain ⟨hrem, hptr⟩ := @Summed.rem2 seed data 0 seed (decide (n % 2 ≠ 0)) hstart
    rw [h2, show 0 + n % 2 = n by omega] at hrem hptr
    rw [hptr]
    exact hend hrem
  rw [if_neg hdwords]
  have hloop : ∃ sum, (if n / 2 / 2 ≠ 0 then
      ((adcEdx (Checksum.qwordLoop data (n / 2 / 2) 0 seed false).1
        (Checksum.qwordLoop data (n / 2 / 2) 0 seed false).2).1, 8 * (n / 2 / 2)) else (seed, 0)) =
        (sum, 2 * (4 * (n / 2 / 2))) ∧ Summed seed data (4 * (n / 2 / 2)) sum := by
    obtain ⟨hsum, hcarry⟩ := hstart.qwordLoop (i := 0) (n := n / 2 / 2)
    rw [Nat.zero_add] at hsum
    by_cases hq : n / 2 / 2 = 0
    · refine ⟨seed, ?_, ?_⟩
      · rw [if_neg (not_not.mpr hq), hq]
      · rw [hq]
        exact hstart
    · refine ⟨_, ?_, hsum⟩
      rw [if_pos hq, hcarry, show 2 * (4 * (n / 2 / 2)) = 8 * (n / 2 / 2) by omega]
      rfl
  obtain ⟨sum, hsum, hsummed⟩ := hloop
  rw [hsum]
  obtain ⟨hrem4, hptr⟩ := @Summed.rem4 seed data _ sum (decide (n / 2 % 2 ≠ 0)) hsummed
  rw [h4] at hrem4 hptr
  rw [hptr]
  obtain ⟨hrem2, hptr⟩ := @Summed.rem2 seed data _ _ (decide (n % 2 ≠ 0)) hrem4
  rw [h2, show 4 * (n / 2 / 2) + 2 * (n / 2 % 2) + n % 2 = n by omega] at hrem2 hptr
  rw [hptr]
  exact hend hrem2

theorem toNat_checksum1 (data : Nat → BitVec 8) (n : Nat) :
    (checksum1 0 data (2 * n)).toNat = fold 65535 (wordSum data n) := by
  obtain ⟨hlow, hhigh⟩ := checksum1_spec 0 data (2 * n)
  have htext : textSum data (2 * n) = wordSum data n := by
    simp [textSum]
  have hzero : (0 : BitVec 32).toNat = 0 := rfl
  rw [htext, hzero, Nat.zero_mod, Nat.zero_add] at hlow
  omega

theorem wordSum_add (data : Nat → BitVec 8) (n m : Nat) :
    wordSum data (n + m) = wordSum data n + wordSum (fun i => data (2 * n + i)) m := by
  induction m with
  | zero => rfl
  | succ m ih =>
    rw [← Nat.add_assoc, wordSum, ih, wordSum, word, word, show 2 * (n + m) = 2 * n + 2 * m by omega, Nat.add_assoc,
      Nat.add_assoc]

theorem textSum_add (data : Nat → BitVec 8) (n m : Nat) :
    textSum data (2 * n + m) = textSum data (2 * n) + textSum (fun i => data (2 * n + i)) m := by
  unfold textSum
  rw [show (2 * n + m) / 2 = n + m / 2 by omega, show (2 * n + m) % 2 = m % 2 by omega, wordSum_add]
  simp [Nat.mul_add, Nat.add_assoc]

/-- **A partial sum.** A string may be summed in two parts, of which the first one is even. -/
theorem checksum1_partial (seed : BitVec 32) (data : Nat → BitVec 8) :
    (∀ length, (checksum1 seed data length).toNat / 65536 = seed.toNat / 65536 ∧
      (checksum1 seed data length).toNat % 65536 ≡ seed.toNat % 65536 + textSum data length [MOD 65535]) ∧
    ∀ n m, (checksum1 (checksum1 seed data (2 * n)) (fun i => data (2 * n + i)) m).toNat % 65536 ≡
      (checksum1 seed data (2 * n + m)).toNat % 65536 [MOD 65535] := by
  have hmod : ∀ seed data length,
      (checksum1 seed data length).toNat % 65536 ≡ seed.toNat % 65536 + textSum data length [MOD 65535] := by
    intro seed data length
    rw [(checksum1_spec seed data length).1]
    exact fold_modEq _
  refine ⟨fun length => ⟨(checksum1_spec seed data length).2, hmod seed data length⟩, fun n m => ?_⟩
  calc (checksum1 (checksum1 seed data (2 * n)) (fun i => data (2 * n + i)) m).toNat % 65536
      ≡ (checksum1 seed data (2 * n)).toNat % 65536 + textSum (fun i => data (2 * n + i)) m [MOD 65535] := hmod _ _ _
    _ ≡ seed.toNat % 65536 + textSum data (2 * n) + textSum (fun i => data (2 * n + i)) m [MOD 65535] :=
      (hmod _ _ _).add_right _
    _ = seed.toNat % 65536 + textSum data (2 * n + m) := by rw [textSum_add, Nat.add_assoc]
    _ ≡ (checksum1 seed data (2 * n + m)).toNat % 65536 [MOD 65535] := (hmod _ _ _).symm

/-! ## The field -/

def complement (sum : BitVec 32) : BitVec 16 :=
  let edx := (sum &&& 0xFFFF#32) + sum >>> 16
  let dx : BitVec 16 := edx.setWidth 16 + (edx >>> 16).setWidth 16
  if dx = 0 then ~~~dx - 1 else ~~~dx

theorem checksum2_eq (sum : BitVec 32) : checksum2 sum = ((complement sum).rotateLeft 8).setWidth 32 := rfl

theorem complement_spec {sum : BitVec 32} (h : sum.toNat ≤ 65535) :
    (complement sum).toNat = if sum.toNat = 0 then 65534 else 65535 - sum.toNat := by
  have hlow : (sum &&& 0xFFFF#32).toNat = sum.toNat := by
    rw [BitVec.toNat_and]
    exact (Nat.and_two_pow_sub_one_eq_mod sum.toNat 16).trans (Nat.mod_eq_of_lt (by omega))
  have hedx : ((sum &&& 0xFFFF#32) + sum >>> 16).toNat = sum.toNat := by
    rw [BitVec.toNat_add, hlow, BitVec.toNat_ushiftRight, Nat.shiftRight_eq_div_pow]
    omega
  unfold complement
  dsimp only
  generalize (sum &&& 0xFFFF#32) + sum >>> 16 = edx at hedx
  have hdx : (edx.setWidth 16 + (edx >>> 16).setWidth 16 : BitVec 16).toNat = sum.toNat := by
    rw [BitVec.toNat_add, BitVec.toNat_setWidth, BitVec.toNat_setWidth, BitVec.toNat_ushiftRight,
      Nat.shiftRight_eq_div_pow]
    omega
  generalize edx.setWidth 16 + (edx >>> 16).setWidth 16 = dx at hdx
  have hzero : dx = 0 ↔ sum.toNat = 0 := by
    rw [← hdx, ← BitVec.toNat_inj]
    rfl
  simp only [hzero]
  have hone : (1 : BitVec 16).toNat = 1 := rfl
  split_ifs
  · rw [BitVec.toNat_sub, BitVec.toNat_not]
    omega
  · rw [BitVec.toNat_not]
    omega

theorem toNat_swap (dx : BitVec 16) : ((dx.rotateLeft 8).setWidth 32).toNat = dx.toNat % 256 * 256 + dx.toNat / 256 := by
  have hswap : dx.rotateLeft 8 = (dx.extractLsb' 0 8 ++ dx.extractLsb' 8 8 : BitVec 16) := by
    apply BitVec.eq_of_getLsbD_eq
    intro i hi
    rw [BitVec.getLsbD_append]
    interval_cases i <;> simp [BitVec.getElem_rotateLeft]
  rw [BitVec.toNat_setWidth, hswap, BitVec.toNat_append, ← Nat.shiftLeft_add_eq_or_of_lt (BitVec.isLt _),
    BitVec.extractLsb'_toNat, BitVec.extractLsb'_toNat, Nat.shiftLeft_eq, Nat.shiftRight_zero,
    Nat.shiftRight_eq_div_pow]
  have hhigh : dx.toNat / 2 ^ 8 < 2 ^ 8 := by omega
  rw [Nat.mod_eq_of_lt hhigh, Nat.mod_eq_of_lt (by omega)]
  rfl

theorem word_writeField (data : Nat → BitVec 8) (f : Nat) (sum : BitVec 32) :
    word (writeField data f (checksum2 sum)) f = (complement sum).toNat := by
  have hlt := (complement sum).isLt
  unfold word writeField
  rw [update_of_ne (by omega), update_self, update_self, BitVec.extractLsb'_toNat, BitVec.extractLsb'_toNat,
    checksum2_eq, toNat_swap, Nat.shiftRight_zero, Nat.shiftRight_eq_div_pow]
  generalize (complement sum).toNat = x at hlt ⊢
  have hdiv : (x % 256 * 256 + x / 256) / 2 ^ 8 = x % 256 := by omega
  rw [hdiv]
  omega

theorem word_writeField_of_ne (sum : BitVec 32) (h : i ≠ f) : word (writeField data f sum) i = word data i := by
  unfold word writeField
  rw [update_of_ne (by omega), update_of_ne (by omega), update_of_ne (by omega), update_of_ne (by omega)]

theorem wordSum_writeField (sum : BitVec 32) (hf : f < n) (hfield : word data f = 0) :
    wordSum (writeField data f (checksum2 sum)) n = wordSum data n + (complement sum).toNat := by
  induction n with
  | zero => omega
  | succ n ih =>
    unfold wordSum
    by_cases hlast : f = n
    · subst hlast
      have hbefore : ∀ m ≤ f, wordSum (writeField data f (checksum2 sum)) m = wordSum data m := by
        intro m hm
        induction m with
        | zero => rfl
        | succ m ihm =>
          unfold wordSum
          rw [ihm (by omega), word_writeField_of_ne _ (by omega)]
      rw [hbefore f (le_refl f), word_writeField, hfield, Nat.add_zero]
    · rw [ih (by omega), word_writeField_of_ne _ (by omega)]
      omega

theorem word_eq_zero_iff : word data i = 0 ↔ data (2 * i) = 0 ∧ data (2 * i + 1) = 0 := by
  have hzero : ∀ b : BitVec 8, b.toNat = 0 ↔ b = 0 := fun b => BitVec.toNat_inj (y := 0)
  unfold word
  rw [← hzero, ← hzero]
  omega

theorem wordSum_eq_zero_iff : wordSum data n = 0 ↔ ¬ ∃ i < 2 * n, data i ≠ 0 := by
  induction n with
  | zero => simp [wordSum]
  | succ n ih =>
    rw [wordSum, Nat.add_eq_zero_iff, ih, word_eq_zero_iff]
    push Not
    constructor
    · rintro ⟨hbefore, h0, h1⟩ i hi
      obtain h | rfl | rfl : i < 2 * n ∨ i = 2 * n ∨ i = 2 * n + 1 := by omega
      · exact hbefore i h
      · exact h0
      · exact h1
    · intro h
      exact ⟨fun i hi => h i (by omega), h _ (by omega), h _ (by omega)⟩

theorem checksum2_eq_zero_iff : checksum2 sum = 0 ↔ (complement sum).toNat = 0 := by
  have hzero : checksum2 sum = 0 ↔ (checksum2 sum).toNat = 0 := (BitVec.toNat_inj (y := 0)).symm
  rw [hzero, checksum2_eq, toNat_swap]
  omega

/-- The words of the packet do not sum to a multiple of 65535 apart from 0. -/
theorem checksum_right_iff (data : Nat → BitVec 8) (n f : Nat) (hf : f < n)
    (hfield : data (2 * f) = 0 ∧ data (2 * f + 1) = 0) :
    (((∃ i < 2 * n, data i ≠ 0) → wordSum (writeField data f (checksum2 (checksum1 0 data (2 * n)))) n % 65535 = 0) ∧
      checksum2 (checksum1 0 data (2 * n)) ≠ 0) ↔
      ¬ ((∃ i < 2 * n, data i ≠ 0) ∧ 65535 ∣ wordSum data n) := by
  have hsum := toNat_checksum1 data n
  have hle := fold_le (by omega : 0 < 65535) (wordSum data n)
  have hmod : fold 65535 (wordSum data n) % 65535 = wordSum data n % 65535 := fold_modEq _
  have hzero := @fold_eq_zero_iff 65535 (wordSum data n)
  have hspec := @complement_spec (checksum1 0 data (2 * n)) (by omega)
  have hnonzero : (∃ i < 2 * n, data i ≠ 0) ↔ wordSum data n ≠ 0 := by
    rw [Ne, wordSum_eq_zero_iff, not_not]
  rw [hsum] at hspec
  rw [wordSum_writeField _ hf (word_eq_zero_iff.mpr hfield), Ne, checksum2_eq_zero_iff, hnonzero]
  generalize fold 65535 (wordSum data n) = e at *
  by_cases he : e = 0
  · rw [if_pos he] at hspec
    have hall := hzero.mp he
    constructor
    · exact fun _ h => h.1 hall
    · exact fun _ => ⟨fun h => absurd hall h, by omega⟩
  rw [if_neg he] at hspec
  constructor
  · rintro ⟨-, h⟩ hdvd
    omega
  · intro h
    exact ⟨fun _ => by omega, by omega⟩

theorem checksum_right_small :
    wordSum (writeField (fun i => if i = 0 then 1 else if i = 1 then 2 else 0) 1
      (checksum2 (checksum1 0 (fun i => if i = 0 then 1 else if i = 1 then 2 else 0) 4))) 2 % 65535 = 0 :=
  ((checksum_right_iff (fun i => if i = 0 then 1 else if i = 1 then 2 else 0) 2 1 (by decide) (by decide)).mpr
    (by decide)).1 (by decide)

/-- For the words FFFF and 0 the field is 0. -/
theorem checksum_sends_zero :
    ¬ ∀ (data : Nat → BitVec 8) (n f : Nat), f < n → data (2 * f) = 0 ∧ data (2 * f + 1) = 0 →
      ((∃ i < 2 * n, data i ≠ 0) → wordSum (writeField data f (checksum2 (checksum1 0 data (2 * n)))) n % 65535 = 0) ∧
      checksum2 (checksum1 0 data (2 * n)) ≠ 0 := by
  intro h
  exact (h (fun i => if i < 2 then 0xFF else 0) 2 1 (by decide) (by decide)).2 (by decide)

end Kolibri.Checksum
