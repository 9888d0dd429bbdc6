import Mathlib

/-! # Smoothed round trip times (`tcp.rs`, `tcp_xmit_timer`) -/

namespace Kolibri.TcpTimer

open BitVec

structure TcpSocket where
  tRtt : BitVec 32
  tSrtt : BitVec 32
  tRttvar : BitVec 32

def tcpRttShift : Nat := 3
def tcpRttvarShift : Nat := 2

/-- `add`, `ja`: with a carry or a zero result, 1 is stored. -/
def addJaClamp (old delta : BitVec 32) : BitVec 32 :=
  let sum := old + delta
  if BitVec.uaddOverflow old delta ∨ sum = 0 then 1 else sum

def absCdq (eax : BitVec 32) : BitVec 32 :=
  let edx : BitVec 32 := if eax.toInt < 0 then 0xFFFFFFFF else 0
  (eax ^^^ edx) - edx

def tcpXmitTimer (rtt : BitVec 32) (s : TcpSocket) : TcpSocket :=
  if s.tRtt = 0 then
    { s with tSrtt := rtt <<< tcpRttShift, tRttvar := rtt <<< (tcpRttvarShift - 1) }
  else
    let eax := rtt - s.tSrtt >>> tcpRttShift - 1
    let srtt := addJaClamp s.tSrtt eax
    let eax := absCdq eax - s.tRttvar >>> tcpRttvarShift
    { s with tSrtt := srtt, tRttvar := addJaClamp s.tRttvar eax }

/-! ## Signed differences in 32 bits -/

def Holds (x : BitVec 32) (d : Int) : Prop := (x.toNat : Int) = if 0 ≤ d then d else d + 2 ^ 32

theorem holds_sub {x y : BitVec 32} {d : Int} (hx : Holds x d) (hd : |d| < 2 ^ 30) (hy : y.toNat < 2 ^ 30) :
    Holds (x - y) (d - y.toNat) := by
  unfold Holds at hx ⊢
  rw [abs_lt] at hd
  rw [toNat_sub]
  split_ifs at hx ⊢ <;> omega

theorem absCdq_spec {x : BitVec 32} {d : Int} (hx : Holds x d) (hd : |d| < 2 ^ 31) : Holds (absCdq x) |d| := by
  unfold Holds at hx
  unfold Holds absCdq
  rw [abs_lt] at hd
  rw [if_pos (abs_nonneg d)]
  by_cases h0 : 0 ≤ d
  · rw [if_pos h0] at hx
    have hpos : ¬ x.toInt < 0 := by
      rw [toInt_eq_toNat_cond]
      split_ifs <;> omega
    rw [if_neg hpos, abs_of_nonneg h0]
    simpa using hx
  have hneg : x.toInt < 0 := by
    rw [toInt_eq_toNat_cond]
    split_ifs <;> omega
  have hnot : x ^^^ 0xFFFFFFFF = ~~~x := xor_allOnes
  rw [if_pos hneg, abs_of_neg (by omega)]
  dsimp only
  rw [hnot, toNat_sub, toNat_not]
  have hones : (0xFFFFFFFF : BitVec 32).toNat = 2 ^ 32 - 1 := rfl
  omega

theorem addJaClamp_spec {old delta : BitVec 32} {d : Int} (hdelta : Holds delta d) (hold : old.toNat < 2 ^ 30)
    (hd : |d| < 2 ^ 30) :
    ((addJaClamp old delta).toNat : Int) =
      if 0 ≤ d then max 1 (old.toNat + d) else if 0 ≤ old.toNat + d then 1 else old.toNat + d + 2 ^ 32 := by
  unfold Holds at hdelta
  unfold addJaClamp
  rw [abs_lt] at hd
  have hcarry : BitVec.uaddOverflow old delta = true ↔ 2 ^ 32 ≤ old.toNat + delta.toNat := by
    simp [BitVec.uaddOverflow]
  have hzero : old + delta = 0 ↔ (old.toNat + delta.toNat) % 2 ^ 32 = 0 := by
    rw [← toNat_inj, toNat_add]
    rfl
  simp only [hcarry, hzero]
  by_cases h0 : 0 ≤ d
  · rw [if_pos h0] at hdelta ⊢
    split_ifs
    · have hone : (1 : BitVec 32).toNat = 1 := rfl
      omega
    · rw [toNat_add]
      omega
  split_ifs
  · rfl
  · omega
  · omega
  · rw [toNat_add]
    omega

theorem addJaClamp_right_iff {old delta : BitVec 32} {d : Int} (hdelta : Holds delta d) (hold : old.toNat < 2 ^ 30)
    (hd : |d| < 2 ^ 30) :
    ((addJaClamp old delta).toNat : Int) = max 1 (old.toNat + d) ↔
      0 ≤ d ∨ (0 ≤ old.toNat + d ∧ old.toNat + d ≤ 1) := by
  rw [addJaClamp_spec hdelta hold hd]
  rw [abs_lt] at hd
  split_ifs <;> omega

/-! ## The estimators -/

def delta (rtt : BitVec 32) (s : TcpSocket) : Int := rtt.toNat - s.tSrtt.toNat / 8 - 1

/-- What the recurrences of the comments give. -/
def Smoothed (rtt : BitVec 32) (s s' : TcpSocket) : Prop :=
  (s'.tSrtt.toNat : Int) = max 1 (s.tSrtt.toNat + delta rtt s) ∧
    (s'.tRttvar.toNat : Int) = max 1 (s.tRttvar.toNat + (|delta rtt s| - s.tRttvar.toNat / 4))

theorem holds_delta {rtt : BitVec 32} {s : TcpSocket} (hrtt : rtt.toNat < 2 ^ 28) (hsrtt : s.tSrtt.toNat < 2 ^ 28) :
    Holds (rtt - s.tSrtt >>> tcpRttShift - 1) (delta rtt s) ∧ |delta rtt s| < 2 ^ 29 := by
  have hshift : (s.tSrtt >>> tcpRttShift).toNat = s.tSrtt.toNat / 8 := by
    rw [toNat_ushiftRight, Nat.shiftRight_eq_div_pow]
    rfl
  have hstart : Holds rtt rtt.toNat := by
    unfold Holds
    rw [if_pos (by omega)]
  have hbound : ∀ d : Int, -2 ^ 29 < d → d < 2 ^ 29 → |d| < 2 ^ 29 := fun d h1 h2 => abs_lt.mpr ⟨h1, h2⟩
  have hfirst := holds_sub hstart (by rw [abs_lt]; omega) (y := s.tSrtt >>> tcpRttShift) (by omega)
  have hsecond := holds_sub hfirst (by rw [abs_lt]; omega) (y := 1) (by decide)
  rw [hshift] at hsecond
  refine ⟨?_, hbound _ ?_ ?_⟩
  · simpa [delta] using hsecond
  · unfold delta
    omega
  · unfold delta
    omega

/-- The time has grown and its deviation as well, or the averages are the smallest. -/
theorem xmit_timer_smooths_iff (rtt : BitVec 32) (s : TcpSocket) (hrtt : rtt.toNat < 2 ^ 28)
    (hsrtt : s.tSrtt.toNat < 2 ^ 28) (hvar : s.tRttvar.toNat < 2 ^ 28) (hmeasured : s.tRtt ≠ 0) :
    Smoothed rtt s (tcpXmitTimer rtt s) ↔
      (s.tSrtt.toNat / 8 < rtt.toNat ∨ (rtt.toNat = 0 ∧ (s.tSrtt.toNat = 1 ∨ s.tSrtt.toNat = 2))) ∧
        (s.tRttvar.toNat / 4 : Int) ≤ |(rtt.toNat : Int) - s.tSrtt.toNat / 8 - 1| := by
  obtain ⟨hholds, hdelta⟩ := holds_delta hrtt hsrtt
  have hshift : (s.tRttvar >>> tcpRttvarShift).toNat = s.tRttvar.toNat / 4 := by
    rw [toNat_ushiftRight, Nat.shiftRight_eq_div_pow]
    rfl
  have habs := absCdq_spec hholds (by omega)
  have hnonneg := abs_nonneg (delta rtt s)
  have hvariance := holds_sub habs (by rw [abs_abs]; omega) (y := s.tRttvar >>> tcpRttvarShift) (by omega)
  rw [hshift, Int.natCast_ediv] at hvariance
  unfold Smoothed tcpXmitTimer
  rw [if_neg hmeasured]
  have hfirst := @addJaClamp_right_iff s.tSrtt _ _ hholds (by omega) (by omega)
  have hsecond := @addJaClamp_right_iff s.tRttvar _ _ hvariance (by omega) (by rw [abs_lt]; omega)
  rw [hfirst]
  refine (and_congr_right fun _ => hsecond).trans ?_
  change _ ↔ _ ∧ _ ≤ |delta rtt s|
  refine and_congr ?_ ?_
  · unfold delta
    omega
  · omega

theorem xmit_timer_smooths_rise : Smoothed 100 ⟨1, 80, 40⟩ (tcpXmitTimer 100 ⟨1, 80, 40⟩) :=
  (xmit_timer_smooths_iff 100 ⟨1, 80, 40⟩ (by decide) (by decide) (by decide) (by decide)).mpr
    ⟨by decide, by decide⟩

/-- A time below the average sets the average to 1: 7 eighths of 80 and 5 more would be 74. -/
theorem xmit_timer_drops_average :
    ¬ ∀ (rtt : BitVec 32) (s : TcpSocket), rtt.toNat < 2 ^ 28 → s.tSrtt.toNat < 2 ^ 28 → s.tRttvar.toNat < 2 ^ 28 →
      s.tRtt ≠ 0 → Smoothed rtt s (tcpXmitTimer rtt s) := by
  intro h
  have hfalls := (h 5 ⟨1, 80, 40⟩ (by decide) (by decide) (by decide) (by decide)).1
  revert hfalls
  decide

end Kolibri.TcpTimer
