import Mathlib

/-! # The CRC of a message (`crc.rs`)

Each bit that is read moves a difference of two registers down by one place at most.
-/

namespace Kolibri.Crc

open BitVec List

def round (poly : BitVec 32) (s : BitVec 32 × BitVec 32) : BitVec 32 × BitVec 32 :=
  let mix := s.1 ^^^ s.2
  let hash := s.1 >>> 1
  (if mix &&& 1 ≠ 0 then hash ^^^ poly else hash, s.2 >>> 1)

def crc32Byte (poly hash : BitVec 32) (byte : BitVec 8) : BitVec 32 :=
  ((round poly)^[8] (hash, byte.setWidth 32)).1

def crc32Update (hash poly : BitVec 32) (data : List (BitVec 8)) : BitVec 32 :=
  data.foldl (crc32Byte poly) hash

/-! ## One bit at a time -/

def feed (poly s : BitVec 32) (bit : Bool) : BitVec 32 :=
  if s.getLsbD 0 ^^ bit then s >>> 1 ^^^ poly else s >>> 1

def register (poly hash : BitVec 32) (bits : Nat → Bool) : Nat → BitVec 32
  | 0 => hash
  | n + 1 => feed poly (register poly hash bits n) (bits n)

/-- Bit `i` of byte `k` stands at position `8 * k + i`. -/
def bitAt (data : List (BitVec 8)) (p : Nat) : Bool := (data.getD (p / 8) 0).getLsbD (p % 8)

variable {poly hash : BitVec 32} {x y : Nat → Bool}

theorem register_congr {n : Nat} (h : ∀ p < n, x p = y p) : register poly hash x n = register poly hash y n := by
  induction n with
  | zero => rfl
  | succ n ih => rw [register, register, ih fun p hp => h p (by omega), h n (by omega)]

theorem register_add (m n : Nat) :
    register poly hash x (m + n) = register poly (register poly hash x m) (fun i => x (m + i)) n := by
  induction n with
  | zero => rfl
  | succ n ih => rw [← Nat.add_assoc, register, register, ih]

theorem round_eq_feed (s b : BitVec 32) : round poly (s, b) = (feed poly s (b.getLsbD 0), b >>> 1) := by
  have hbit : (s ^^^ b) &&& 1 ≠ 0 ↔ (s.getLsbD 0 ^^ b.getLsbD 0) = true := by
    rw [← getLsbD_xor]
    generalize s ^^^ b = mix
    rw [BitVec.getLsbD, Nat.testBit_zero, decide_eq_true_iff, ne_eq, ← toNat_inj, toNat_and]
    simp [Nat.and_one_is_mod]
  unfold round feed
  simp only [hbit]

theorem rounds_eq_register (s b : BitVec 32) (n : Nat) :
    (round poly)^[n] (s, b) = (register poly s b.getLsbD n, b >>> n) := by
  induction n with
  | zero => simp [register]
  | succ n ih =>
    rw [Function.iterate_succ_apply', ih, round_eq_feed, register, ← shiftRight_add]
    simp

theorem crc32Update_eq_register (data : List (BitVec 8)) :
    crc32Update hash poly data = register poly hash (bitAt data) (8 * data.length) := by
  induction data using List.reverseRecOn with
  | nil => rfl
  | append_singleton data byte ih =>
    have hbefore : ∀ p < 8 * data.length, bitAt data p = bitAt (data ++ [byte]) p := by
      intro p hp
      unfold bitAt
      rw [getD_append _ _ _ _ (by omega)]
    have hbyte : ∀ i < 8, (byte.setWidth 32).getLsbD i = bitAt (data ++ [byte]) (8 * data.length + i) := by
      intro i hi
      have hdiv : (8 * data.length + i) / 8 = data.length := by omega
      have hmod : (8 * data.length + i) % 8 = i := by omega
      unfold bitAt
      rw [hdiv, hmod, getD_append_right _ _ _ _ le_rfl, Nat.sub_self, getLsbD_setWidth]
      simp
      omega
    unfold crc32Update at ih ⊢
    rw [foldl_append, ih, length_append, length_singleton, Nat.mul_add, register_add,
      register_congr hbefore, foldl_cons, foldl_nil, crc32Byte, rounds_eq_register, register_congr hbyte]

/-! ## Differences in the register -/

section

variable {s t : BitVec 32} {b c : Bool}

theorem getLsbD_feed (poly s : BitVec 32) (b : Bool) (i : Nat) :
    (feed poly s b).getLsbD i = (s.getLsbD (i + 1) ^^ ((s.getLsbD 0 ^^ b) && poly.getLsbD i)) := by
  unfold feed
  cases s.getLsbD 0 ^^ b <;> simp [Nat.add_comm]

theorem getLsbD_feed_top (hpoly : poly.getLsbD 31 = true) (s : BitVec 32) (b : Bool) :
    (feed poly s b).getLsbD 31 = (s.getLsbD 0 ^^ b) := by
  rw [getLsbD_feed, hpoly, getLsbD_of_ge _ _ (by decide)]
  simp

theorem feed_ne (hpoly : poly.getLsbD 31 = true) (hne : s ≠ t) : feed poly s b ≠ feed poly t b := by
  intro heq
  have htop := congrArg (·.getLsbD 31) heq
  simp only [getLsbD_feed_top hpoly, Bool.xor_left_inj] at htop
  refine hne (eq_of_getLsbD_eq fun i _ => ?_)
  cases i with
  | zero => exact htop
  | succ i =>
    have hi := congrArg (·.getLsbD i) heq
    simp only [getLsbD_feed, htop, Bool.xor_left_inj] at hi
    exact hi

/-- The registers differ at place `k` or above. -/
def DifferFrom (k : Nat) (s t : BitVec 32) : Prop := ∃ m, k ≤ m ∧ s.getLsbD m ≠ t.getLsbD m

theorem DifferFrom.ne {k : Nat} (h : DifferFrom k s t) : s ≠ t := by
  rintro rfl
  obtain ⟨m, -, hm⟩ := h
  exact hm rfl

theorem DifferFrom.feed {k : Nat} (hpoly : poly.getLsbD 31 = true) (h : DifferFrom (k + 1) s t) :
    DifferFrom k (feed poly s b) (feed poly t c) := by
  obtain ⟨m, hk, hm⟩ := h
  by_cases hmix : (s.getLsbD 0 ^^ b) = (t.getLsbD 0 ^^ c)
  · refine ⟨m - 1, by omega, ?_⟩
    rw [getLsbD_feed, getLsbD_feed, hmix, Nat.sub_add_cancel (by omega)]
    simpa using hm
  have hlt : m < 32 := by
    by_contra hge
    rw [getLsbD_of_ge _ _ (by omega), getLsbD_of_ge _ _ (by omega)] at hm
    exact hm rfl
  refine ⟨31, by omega, ?_⟩
  rw [getLsbD_feed_top hpoly, getLsbD_feed_top hpoly]
  exact hmix

end

theorem register_differ (hash : BitVec 32) (hpoly : poly.getLsbD 31 = true) {p : Nat} (hsame : ∀ q < p, x q = y q)
    (hp : x p ≠ y p) {j : Nat} (hj : j ≤ 31) :
    DifferFrom (31 - j) (register poly hash x (p + 1 + j)) (register poly hash y (p + 1 + j)) := by
  induction j with
  | zero =>
    refine ⟨31, le_rfl, ?_⟩
    rw [Nat.add_zero, register, register, register_congr hsame, getLsbD_feed_top hpoly, getLsbD_feed_top hpoly]
    simpa using hp
  | succ j ih =>
    have hstep := ih (by omega)
    rw [show 31 - j = 31 - (j + 1) + 1 by omega] at hstep
    exact hstep.feed hpoly

theorem register_ne (hpoly : poly.getLsbD 31 = true) {m n : Nat} (hmn : m ≤ n)
    (hne : register poly hash x m ≠ register poly hash y m) (hsame : ∀ p, m ≤ p → x p = y p) :
    register poly hash x n ≠ register poly hash y n := by
  induction n, hmn using Nat.le_induction with
  | base => exact hne
  | succ n hmn ih =>
    rw [register, register, hsame n hmn]
    exact feed_ne hpoly ih

/-- The messages differ only within 32 consecutive bits. -/
def Burst (a b : List (BitVec 8)) : Prop := ∃ start, ∀ p, bitAt a p ≠ bitAt b p → start ≤ p ∧ p < start + 32

theorem exists_bit_ne {a b : List (BitVec 8)} (hlen : a.length = b.length) (hne : a ≠ b) :
    ∃ p, bitAt a p ≠ bitAt b p := by
  by_contra! hsame
  refine hne (ext_getElem hlen fun k hka hkb => eq_of_getLsbD_eq fun i hi => ?_)
  have hbit := hsame (8 * k + i)
  unfold bitAt at hbit
  rwa [show (8 * k + i) / 8 = k by omega, show (8 * k + i) % 8 = i by omega, getD_eq_getElem _ _ hka,
    getD_eq_getElem _ _ hkb] at hbit

theorem bitAt_of_le {data : List (BitVec 8)} {p : Nat} (hp : 8 * data.length ≤ p) : bitAt data p = false := by
  unfold bitAt
  rw [getD_eq_default _ _ (by omega)]
  simp

/-- **The CRC detects every burst of up to 32 bits**, and can be taken in parts. -/
theorem crc32_update_detects (poly hash : BitVec 32) :
    (poly.getLsbD 31 = true → ∀ a b : List (BitVec 8), a.length = b.length → a ≠ b → Burst a b →
      crc32Update hash poly a ≠ crc32Update hash poly b) ∧
    ∀ a b, crc32Update (crc32Update hash poly a) poly b = crc32Update hash poly (a ++ b) := by
  refine ⟨fun hpoly a b hlen hne hburst => ?_, fun a b => (foldl_append ..).symm⟩
  obtain ⟨start, hburst⟩ := hburst
  have hdiff := exists_bit_ne hlen hne
  classical
  obtain ⟨p, hp, hfirst⟩ : ∃ p, bitAt a p ≠ bitAt b p ∧ ∀ q < p, bitAt a q = bitAt b q :=
    ⟨Nat.find hdiff, Nat.find_spec hdiff, fun q hq => not_not.mp (Nat.find_min hdiff hq)⟩
  have hrange := hburst p hp
  have hend : p < 8 * a.length := by
    by_contra! hge
    exact hp ((bitAt_of_le hge).trans (bitAt_of_le (by omega)).symm)
  rw [crc32Update_eq_register, crc32Update_eq_register, ← hlen]
  -- The difference lasts to the end of the burst, or of the message if that is nearer.
  have hburstEnd : ∀ m, p < m → m ≤ start + 32 → register poly hash (bitAt a) m ≠ register poly hash (bitAt b) m := by
    intro m hpm hm
    have hdiffer := register_differ hash hpoly hfirst hp (show m - (p + 1) ≤ 31 by omega)
    rw [Nat.add_sub_cancel' hpm] at hdiffer
    exact hdiffer.ne
  rcases Nat.le_total (8 * a.length) (start + 32) with hle | hle
  · exact hburstEnd _ hend hle
  · refine register_ne hpoly hle (hburstEnd _ hrange.2 le_rfl) fun q hq => ?_
    by_contra hq'
    have := hburst q hq'
    omega

theorem crc32_update_detects_one :
    Burst [0x31] [0x32] ∧ crc32Update (-1) 0xEDB88320 [0x31] ≠ crc32Update (-1) 0xEDB88320 [0x32] := by
  have hburst : Burst [0x31] [0x32] := by
    refine ⟨0, fun p hp => ⟨Nat.zero_le p, ?_⟩⟩
    by_contra! hge
    exact hp ((bitAt_of_le (by simp; omega)).trans (bitAt_of_le (by simp; omega)).symm)
  exact ⟨hburst, (crc32_update_detects 0xEDB88320 (-1)).1 (by decide) _ _ rfl (by decide) hburst⟩

end Kolibri.Crc
