import Kolibri.Network.Checksum
import Kolibri.Network.IPv4

/-! # Which packets IPv4 takes

The checksum of a header is checked over its first ten words only, and without the field.
-/

namespace Kolibri.Network

open Memory OnesComplement Function List
open Checksum (word wordSum)

/-! ## What a good header is -/

variable (mem : Mem) (edx : BitVec 32)

def headerByte (i : Nat) : BitVec 8 := mem (edx + BitVec.ofNat 32 i)

def ihl : Nat := (mem edx &&& 0xF).toNat

/-- The first `n` words sum to `FFFF` in ones' complement. -/
def SumRight (n : Nat) : Prop := fold 65535 (wordSum (headerByte mem edx) n) = 65535

def Multicast (eax : BitVec 32) : Prop := 224 ≤ (eax.extractLsb' 0 8).toNat ∧ (eax.extractLsb' 0 8).toNat ≤ 239

variable (net : Net)

def Destined (edi eax : BitVec 32) : Prop :=
  eax = net.address edi ∨ eax = net.broadcast edi ∨ eax = 0xffffffff ∨ Multicast eax ∨ net.address edi = 0

def Counted (p : Packet) (edi : BitVec 32) : Prop :=
  (ipv4Input net p).1.packetsRx edi = net.packetsRx edi + 1

/-! ## The counter -/

theorem has_fragments_packetsRx (p : Packet) (edi : BitVec 32) :
    (hasFragments net p edi).1.packetsRx = net.packetsRx := by
  unfold hasFragments isFirstFragment dump
  split
  · split <;> rfl
  · split
    · rfl
    · dsimp only
      split <;> rfl

theorem is_last_fragment_packetsRx (p : Packet) (edi : BitVec 32) :
    (isLastFragment net p edi).1.packetsRx = net.packetsRx := by
  unfold isLastFragment dump
  split
  · rfl
  split
  · rfl
  · rfl
  · dsimp only
    split_ifs <;> rfl

theorem handle_it_packetsRx (edx edi : BitVec 32) : (handleIt net edx edi).1.packetsRx = net.packetsRx := by
  unfold handleIt dump
  split <;> rfl

theorem counted_iff {net : Net} {p : Packet} {edi : BitVec 32} (hdev : netPtrToNum4 net p.ebx = some edi) :
    Counted net p edi ↔
      (ipv4Checksum net.mem p.edx).2 = true ∧ ipOk net edi (load32 net.mem (p.edx + 16)) = true := by
  have haddress := (checksum_fields net.mem p.edx).2.2.2.2
  unfold Counted ipv4Input
  rw [hdev]
  rcases hcheck : ipv4Checksum net.mem p.edx with ⟨mem, ok⟩
  rw [hcheck] at haddress
  have hip : ipOk { net with mem } edi (load32 mem (p.edx + 16)) = ipOk net edi (load32 net.mem (p.edx + 16)) := by
    rw [haddress]; rfl
  dsimp only
  rw [hip]
  cases ok with
  | false => simp [dump]
  | true =>
    cases ipOk net edi (load32 net.mem (p.edx + 16)) with
    | false => simp [dump]
    | true =>
      simp only [Bool.not_true, Bool.false_eq_true, if_false, and_self, iff_true]
      split_ifs
      · rw [has_fragments_packetsRx]
        exact update_self ..
      · rw [is_last_fragment_packetsRx]
        exact update_self ..
      · rw [handle_it_packetsRx]
        exact update_self ..

/-! ## The checksum -/

theorem adc_spec (x y : BitVec 8) (carry : Bool) :
    (adc x y carry).1.toNat = (x.toNat + y.toNat + carry.toNat) % 256 ∧
      (adc x y carry).2.toNat = (x.toNat + y.toNat + carry.toNat) / 256 := by
  have hc := carry.toNat_lt
  unfold adc
  constructor
  · simp only [BitVec.toNat_add, BitVec.toNat_setWidth, BitVec.toNat_ofBool]
    omega
  by_cases h : 256 ≤ x.toNat + y.toNat + carry.toNat
  · rw [decide_eq_true h, Bool.toNat_true]
    omega
  · rw [decide_eq_false h, Bool.toNat_false]
    omega

def Sum.value (s : Sum) : Nat := 256 * s.bh.toNat + s.bl.toNat + s.carry.toNat

theorem value_addPair (ptr : BitVec 32) (j : Nat) {s : Sum} (hs : s.value ≤ 65535) :
    (addPair mem ptr s (BitVec.ofNat 32 (2 * j))).value = fold 65535 (s.value + word (headerByte mem ptr) j) := by
  have hbyte : mem (ptr + (BitVec.ofNat 32 (2 * j) + 1)) = headerByte mem ptr (2 * j + 1) := by
    rw [headerByte, BitVec.ofNat_add]
    rfl
  obtain ⟨hbl, hcarry⟩ := adc_spec s.bl (headerByte mem ptr (2 * j + 1)) s.carry
  obtain ⟨hbh, hout⟩ := adc_spec s.bh (headerByte mem ptr (2 * j)) (adc s.bl (headerByte mem ptr (2 * j + 1)) s.carry).2
  have hword := Checksum.word_le (headerByte mem ptr) j
  rw [← digit_add_carry hs hword]
  unfold addPair Sum.value word
  simp only [hbyte]
  change 256 * (adc s.bh (headerByte mem ptr (2 * j)) _).1.toNat + _ + (adc s.bh (headerByte mem ptr (2 * j)) _).2.toNat = _
  rw [hbh, hout, hbl, hcarry]
  omega

theorem value_foldl_addPair (ptr : BitVec 32) (js : List Nat) {s : Sum} (hs : s.value ≤ 65535) :
    ((js.map fun j => BitVec.ofNat 32 (2 * j)).foldl (addPair mem ptr) s).value =
      fold 65535 (s.value + (js.map (word (headerByte mem ptr))).sum) := by
  induction js generalizing s with
  | nil => exact (fold_eq_self hs).symm
  | cons j js ih =>
    have hnext := value_addPair mem ptr j hs
    rw [map_cons, foldl_cons, ih (by rw [hnext]; exact fold_le (by decide) _), hnext, fold_fold_add,
      map_cons, sum_cons, Nat.add_assoc]

def otherWords : List Nat := [0, 1, 2, 3, 4, 6, 7, 8, 9]

def otherSum (data : Nat → BitVec 8) : Nat := (otherWords.map (word data)).sum

theorem wordSum_ten (data : Nat → BitVec 8) : wordSum data 10 = otherSum data + word data 5 := by
  simp only [otherSum, otherWords, wordSum, map_cons, map_nil, sum_cons, sum_nil]
  omega

theorem toNat_swap16 (w : BitVec 16) : (swap16 w).toNat = 256 * (w.extractLsb' 0 8).toNat + (w.extractLsb' 8 8).toNat := by
  rw [swap16, BitVec.toNat_append, ← Nat.shiftLeft_add_eq_or_of_lt (BitVec.isLt _), Nat.shiftLeft_eq, Nat.mul_comm]

theorem swap16_swap16 (w : BitVec 16) : swap16 (swap16 w) = w := by
  apply BitVec.eq_of_getLsbD_eq
  intro i hi
  simp only [swap16, BitVec.getLsbD_append, BitVec.getLsbD_extractLsb']
  interval_cases i <;> simp

theorem toNat_swap16_field (ptr : BitVec 32) :
    (swap16 (load16 mem (ptr + 10))).toNat = word (headerByte mem ptr) 5 := by
  have hlow : (load16 mem (ptr + 10)).extractLsb' 0 8 = headerByte mem ptr 10 := by
    apply BitVec.eq_of_getLsbD_eq
    intro i hi
    simp only [load16, BitVec.getLsbD_extractLsb', BitVec.getLsbD_append]
    interval_cases i <;> rfl
  have hhigh : (load16 mem (ptr + 10)).extractLsb' 8 8 = headerByte mem ptr 11 := by
    apply BitVec.eq_of_getLsbD_eq
    intro i hi
    simp only [load16, BitVec.getLsbD_extractLsb', BitVec.getLsbD_append, BitVec.add_assoc]
    interval_cases i <;> rfl
  rw [toNat_swap16, hlow, hhigh]
  rfl

theorem add_high_word {ebx : BitVec 32} (h : ebx.toNat ≤ 65535) :
    (ebx &&& 0xffff) + ebx >>> 16 = ebx ∧ ebx + ebx >>> 16 = ebx := by
  have hhigh : ebx >>> 16 = 0 := by
    apply BitVec.eq_of_toNat_eq
    rw [BitVec.toNat_ushiftRight, Nat.shiftRight_eq_div_pow]
    exact Nat.div_eq_of_lt (by omega)
  have hlow : ebx &&& 0xffff#32 = ebx := by
    apply BitVec.eq_of_toNat_eq
    rw [BitVec.toNat_and]
    exact (Nat.and_two_pow_sub_one_eq_mod ebx.toNat 16).trans (Nat.mod_eq_of_lt (by omega))
  rw [hhigh, add_zero, add_zero]
  exact ⟨hlow, rfl⟩

theorem checksum_ok_iff {mem : Mem} {ptr : BitVec 32} (hpos : otherSum (headerByte mem ptr) ≠ 0) :
    (ipv4Checksum mem ptr).2 = true ↔
      word (headerByte mem ptr) 5 + fold 65535 (otherSum (headerByte mem ptr)) = 65535 := by
  have hsum := value_foldl_addPair mem ptr otherWords (s := ⟨0, 0, false⟩) (by decide)
  have hle := fold_le (by decide : 0 < 65535) (otherSum (headerByte mem ptr))
  have hzero := @fold_eq_zero_iff 65535 (otherSum (headerByte mem ptr))
  change _ = fold 65535 (0 + otherSum (headerByte mem ptr)) at hsum
  rw [Nat.zero_add] at hsum
  unfold ipv4Checksum
  dsimp only
  rw [show ([0, 2, 4, 6, 8, 12, 14, 16, 18] : List (BitVec 32)) = otherWords.map fun j => BitVec.ofNat 32 (2 * j) from rfl]
  generalize (otherWords.map fun j => BitVec.ofNat 32 (2 * j)).foldl (addPair mem ptr) ⟨0, 0, false⟩ = s at hsum
  generalize fold 65535 (otherSum (headerByte mem ptr)) = e at *
  generalize hebx : (s.bh ++ s.bl).setWidth 32 + (BitVec.ofBool s.carry).setWidth 32 = ebx
  have hvalue : ebx.toNat = e := by
    rw [← hebx, ← hsum, Sum.value, BitVec.toNat_add, BitVec.toNat_setWidth, BitVec.toNat_setWidth, BitVec.toNat_append,
      ← Nat.shiftLeft_add_eq_or_of_lt (BitVec.isLt _), Nat.shiftLeft_eq, BitVec.toNat_ofBool]
    have := s.carry.toNat_lt
    omega
  obtain ⟨hfirst, hsecond⟩ := add_high_word (by omega : ebx.toNat ≤ 65535)
  have hne : ebx ≠ 0 := fun h => by
    rw [h] at hvalue
    exact hpos (hzero.mp hvalue.symm)
  rw [hfirst, hsecond, if_neg hne, decide_eq_true_eq, sub_eq_zero]
  have hswap : swap16 (~~~ebx.setWidth 16) = load16 mem (ptr + 10) ↔
      ~~~ebx.setWidth 16 = swap16 (load16 mem (ptr + 10)) := by
    constructor
    · intro h
      rw [← h, swap16_swap16]
    · intro h
      rw [h, swap16_swap16]
  rw [hswap, ← BitVec.toNat_inj, toNat_swap16_field, BitVec.toNat_not, BitVec.toNat_setWidth, hvalue]
  omega

/-! ## Where the code and the law agree -/

theorem wordSum_add (data : Nat → BitVec 8) (m n : Nat) :
    wordSum data (m + n) = wordSum data m + wordSum (fun i => data (2 * m + i)) n := by
  induction n with
  | zero => rfl
  | succ n ih =>
    have hword : word data (m + n) = word (fun i => data (2 * m + i)) n := by
      rw [word, word, Nat.mul_add, Nat.add_assoc]
    rw [← Nat.add_assoc, wordSum, ih, hword, wordSum, Nat.add_assoc]

def optionsSum : Nat :=
  wordSum (fun i => headerByte mem edx (20 + i)) (2 * ihl mem edx - 10)

/-- The mask `0FFFFFFF` clears half of the last byte, not of the first one. -/
def Missed (edi eax : BitVec 32) : Prop :=
  Multicast eax ∧ eax &&& 0x0fffffff ≠ 224 ∧ eax ≠ net.address edi ∧ eax ≠ net.broadcast edi ∧ net.address edi ≠ 0

/-- Headers on which ten words with a field of their own say the same as all words. -/
def SumsAgree : Prop :=
  if 65535 ∣ optionsSum mem edx then SumRight mem edx 10 → word (headerByte mem edx) 5 ≠ 65535
  else ¬ SumRight mem edx (2 * ihl mem edx) ∧ (SumRight mem edx 10 → word (headerByte mem edx) 5 = 65535)

theorem multicast_of_mask {eax : BitVec 32} (h : eax &&& 0x0fffffff = 224) : Multicast eax := by
  have hbyte : eax.extractLsb' 0 8 = (eax &&& 0x0fffffff).extractLsb' 0 8 := by
    apply BitVec.eq_of_getLsbD_eq
    intro i hi
    simp only [BitVec.getLsbD_extractLsb', BitVec.getLsbD_and]
    interval_cases i <;> simp
  unfold Multicast
  rw [hbyte, h]
  decide

theorem not_multicast_broadcast : ¬ Multicast 0xffffffff := by
  unfold Multicast
  decide

theorem ipOk_iff (edi eax : BitVec 32) : ipOk net edi eax = true ↔ Destined net edi eax ∧ ¬ Missed net edi eax := by
  have hmask := @multicast_of_mask eax
  have hbroadcast : eax = 0xffffffff → ¬ Multicast eax := fun h => h ▸ not_multicast_broadcast
  simp only [ipOk, Bool.or_eq_true, beq_iff_eq, Destined, Missed]
  tauto

section Header

variable {mem : Mem} {edx : BitVec 32} (hihl : 5 ≤ ihl mem edx)

include hihl

theorem otherSum_pos : otherSum (headerByte mem edx) ≠ 0 := by
  have hbyte : (headerByte mem edx 0).toNat ≠ 0 := by
    intro h
    have hand : ihl mem edx ≤ (mem edx).toNat := by
      rw [ihl, BitVec.toNat_and]
      exact Nat.and_le_left
    rw [headerByte, BitVec.add_zero] at h
    omega
  have hword : 0 < word (headerByte mem edx) 0 := by
    change 0 < 256 * (headerByte mem edx 0).toNat + (headerByte mem edx 1).toNat
    omega
  rw [otherSum, otherWords, map_cons, sum_cons]
  omega

theorem sumRight_iff {n : Nat} (hn : 10 ≤ n) : SumRight mem edx n ↔ 65535 ∣ wordSum (headerByte mem edx) n := by
  have hpos := otherSum_pos hihl
  have hten := wordSum_ten (headerByte mem edx)
  have hadd := wordSum_add (headerByte mem edx) 10 (n - 10)
  rw [Nat.add_sub_cancel' hn] at hadd
  rw [SumRight, fold_eq_top_iff (by decide)]
  exact and_iff_right (by omega)

theorem checksum_ok_iff_sumRight :
    (ipv4Checksum mem edx).2 = true ↔ SumRight mem edx 10 ∧ word (headerByte mem edx) 5 ≠ 65535 := by
  have hpos := otherSum_pos hihl
  have hword := Checksum.word_le (headerByte mem edx) 5
  have hle := fold_le (by decide : 0 < 65535) (otherSum (headerByte mem edx))
  have hzero := @fold_eq_zero_iff 65535 (otherSum (headerByte mem edx))
  have hmod : _ % 65535 = _ % 65535 := @fold_modEq 65535 (otherSum (headerByte mem edx))
  rw [checksum_ok_iff hpos, sumRight_iff hihl le_rfl, wordSum_ten]
  omega

theorem sums_agree_iff :
    ((ipv4Checksum mem edx).2 = true ↔ SumRight mem edx (2 * ihl mem edx)) ↔ SumsAgree mem edx := by
  have hall := wordSum_add (headerByte mem edx) 10 (2 * ihl mem edx - 10)
  rw [Nat.add_sub_cancel' (by omega : 10 ≤ 2 * ihl mem edx)] at hall
  rw [checksum_ok_iff_sumRight hihl, SumsAgree]
  by_cases hoptions : 65535 ∣ optionsSum mem edx
  · have hsame : SumRight mem edx (2 * ihl mem edx) ↔ SumRight mem edx 10 := by
      rw [sumRight_iff hihl (le_refl 10), sumRight_iff hihl (by omega : 10 ≤ 2 * ihl mem edx), hall]
      exact (Nat.dvd_add_iff_left hoptions).symm
    rw [if_pos hoptions, hsame]
    tauto
  have hdiffer : SumRight mem edx 10 → ¬ SumRight mem edx (2 * ihl mem edx) := by
    rw [sumRight_iff hihl (le_refl 10), sumRight_iff hihl (by omega : 10 ≤ 2 * ihl mem edx), hall]
    exact fun hten h => hoptions ((Nat.dvd_add_iff_right hten).mpr h)
  rw [if_neg hoptions]
  tauto

end Header

/-- **A packet is taken just if its header is right and it is for the device**, with two exceptions. -/
theorem ipv4_input_counted_iff (net : Net) (p : Packet) (edi : BitVec 32)
    (hdev : netPtrToNum4 net p.ebx = some edi) (hihl : 5 ≤ ihl net.mem p.edx) :
    (Counted net p edi ↔ SumRight net.mem p.edx (2 * ihl net.mem p.edx) ∧
        Destined net edi (load32 net.mem (p.edx + 16))) ↔
      (Missed net edi (load32 net.mem (p.edx + 16)) → ¬ SumRight net.mem p.edx (2 * ihl net.mem p.edx)) ∧
        (Destined net edi (load32 net.mem (p.edx + 16)) → ¬ Missed net edi (load32 net.mem (p.edx + 16)) →
          SumsAgree net.mem p.edx) := by
  have hmissed : Missed net edi (load32 net.mem (p.edx + 16)) → Destined net edi (load32 net.mem (p.edx + 16)) :=
    fun h => .inr (.inr (.inr (.inl h.1)))
  rw [counted_iff hdev, ipOk_iff, ← sums_agree_iff hihl]
  tauto

theorem ipv4_input_counted_tcp : Counted (deliver oneDevice 0x80200000 tcpPacket) (etherPacket 0x80200000 24) 0 := by
  refine ((ipv4_input_counted_iff (deliver oneDevice 0x80200000 tcpPacket) (etherPacket 0x80200000 24) 0
    (by decide) (by decide)).mpr ⟨fun h => absurd rfl h.2.2.2.2, fun _ _ => ?_⟩).mpr ⟨?_, ?_⟩
  · rw [SumsAgree, if_pos (by decide +kernel)]
    exact fun _ => by decide +kernel
  · unfold SumRight
    decide +kernel
  · exact .inr (.inr (.inr (.inr rfl)))

def allHosts : List (BitVec 8) :=
  [0x45, 0x00, 0x00, 0x18, 0x00, 0x00, 0x00, 0x00, 0x40, 0x06, 0xda, 0x35, 0xc0, 0xa8, 0x00, 0x01, 0xe0, 0x00,
    0x00, 0x01, 1, 2, 3, 4]

/-- The device at 192.168.0.2 does not take what is for all hosts. -/
theorem ipv4_input_misses_multicast : ¬ ∀ (net : Net) (p : Packet) (edi : BitVec 32),
    netPtrToNum4 net p.ebx = some edi → 5 ≤ ihl net.mem p.edx →
      (Counted net p edi ↔ SumRight net.mem p.edx (2 * ihl net.mem p.edx) ∧
        Destined net edi (load32 net.mem (p.edx + 16))) := by
  intro h
  have hcounted := (h { deliver oneDevice 0x80200000 allHosts with address := fun _ => 0x0200a8c0 }
    (etherPacket 0x80200000 24) 0 (by decide) (by decide)).mpr
  rw [counted_iff (by decide)] at hcounted
  refine absurd (hcounted ⟨?_, .inr (.inr (.inr (.inl ?_)))⟩).2 (by decide +kernel)
  · unfold SumRight
    decide +kernel
  · unfold Multicast
    decide +kernel

end Kolibri.Network
