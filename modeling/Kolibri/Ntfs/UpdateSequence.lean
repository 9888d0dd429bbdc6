import Kolibri.Lib.Buffer

/-! # Update sequences (`ntfs_usa.rs`)

On the disk the last word of each sector of a record is the number that starts the array.
-/

namespace Kolibri.Ntfs

open Bytes

/-! ## Code -/

def updateSequenceOffset : Nat := 4
def updateSequenceSize : Nat := 6
def sectorEndWordOff : Nat := 0x1FE
def sectorSize : Nat := 512

def restoreLoop (usn : BitVec 16) : Nat → Nat → Nat → (Nat → BitVec 8) → Bool × (Nat → BitVec 8)
  | 0, _, _, record => (true, record)
  | remaining + 1, usa, endWord, record =>
    if readU16 record endWord ≠ usn then (false, record)
    else restoreLoop usn remaining (usa + 2) (endWord + sectorSize) (writeU16 record endWord (readU16 record usa))

def usaOff (record : Nat → BitVec 8) : Nat := (readU16 record updateSequenceOffset).toNat

def usn (record : Nat → BitVec 8) : BitVec 16 := readU16 record (usaOff record)

def ntfsRestoreUsa (record : Nat → BitVec 8) (size : BitVec 32) : Bool × (Nat → BitVec 8) :=
  let sectors := size >>> 9
  let expectedUsa := (sectors + 1).setWidth 16
  if readU16 record updateSequenceSize ≠ expectedUsa then (false, record)
  else restoreLoop (usn record) sectors.toNat (usaOff record + 2) sectorEndWordOff record

/-! ## The loop -/

def endWord (sector : Nat) : Nat := 510 + 512 * sector

/-- Byte `i` is one of the end words of `n` sectors, from sector `s` on. -/
def AtEnd (s n i : Nat) : Prop := 510 ≤ i % 512 ∧ s ≤ i / 512 ∧ i / 512 < s + n

/-- The rounds of the loop without the test. -/
def rounds : Nat → Nat → Nat → (Nat → BitVec 8) → Nat → BitVec 8
  | 0, _, _, record => record
  | n + 1, usa, s, record => rounds n (usa + 2) (s + 1) (writeU16 record (endWord s) (readU16 record usa))

variable {record : Nat → BitVec 8} {usa s n i k : Nat} {size : BitVec 32}

theorem restoreLoop_cases (usn : BitVec 16) (n usa s : Nat) (record : Nat → BitVec 8) :
    (restoreLoop usn n usa (endWord s) record = (true, rounds n usa s record) ∧
        ∀ k < n, readU16 record (endWord (s + k)) = usn) ∨
      ∃ k < n, restoreLoop usn n usa (endWord s) record = (false, rounds k usa s record) ∧
        (∀ j < k, readU16 record (endWord (s + j)) = usn) ∧ readU16 record (endWord (s + k)) ≠ usn := by
  induction n generalizing usa s record with
  | zero => exact .inl ⟨rfl, by simp⟩
  | succ n ih =>
    unfold restoreLoop
    by_cases hhead : readU16 record (endWord s) = usn
    · -- The words of the later sectors are as before the round.
      have hlater : ∀ k, readU16 (writeU16 record (endWord s) (readU16 record usa)) (endWord (s + 1 + k)) =
          readU16 record (endWord (s + (k + 1))) := by
        intro k
        unfold readU16
        rw [writeU16_of_outside, writeU16_of_outside, Nat.add_assoc s, Nat.add_comm 1]
        all_goals unfold endWord; omega
      have hall : ∀ m, (∀ k < m, readU16 record (endWord (s + (k + 1))) = usn) →
          ∀ k < m + 1, readU16 record (endWord (s + k)) = usn := by
        intro m h k hk
        cases k with
        | zero => exact hhead
        | succ k => exact h k (by omega)
      rw [if_neg (not_not.mpr hhead), show endWord s + sectorSize = endWord (s + 1) by unfold endWord sectorSize; omega]
      rcases ih (usa + 2) (s + 1) (writeU16 record (endWord s) (readU16 record usa)) with
        ⟨heq, hwords⟩ | ⟨k, hk, heq, hwords, hlast⟩
      · simp only [hlater] at hwords
        exact .inl ⟨heq, hall n hwords⟩
      · simp only [hlater] at hwords hlast
        exact .inr ⟨k + 1, by omega, heq, hall k hwords, hlast⟩
    · rw [if_pos hhead]
      exact .inr ⟨0, by omega, rfl, by simp, hhead⟩

theorem rounds_of_not_atEnd (h : ¬ AtEnd s n i) : rounds n usa s record i = record i := by
  induction n generalizing usa s record with
  | zero => rfl
  | succ n ih =>
    unfold AtEnd at h
    rw [rounds, ih (by unfold AtEnd; omega)]
    apply writeU16_of_outside
    unfold endWord
    omega

theorem rounds_of_atEnd (husa : ∀ i < 2 * n, ¬ AtEnd s n (usa + i)) (h : AtEnd s n i) :
    rounds n usa s record i = record (usa + 2 * (i / 512 - s) + i % 2) := by
  induction n generalizing usa s record with
  | zero =>
    unfold AtEnd at h
    omega
  | succ n ih =>
    have hdisjoint := husa (2 * (i / 512 - s) + i % 2)
    unfold AtEnd at h husa hdisjoint
    rw [rounds]
    by_cases hfirst : i / 512 = s
    · rw [rounds_of_not_atEnd (by unfold AtEnd; omega), writeU16_readU16, if_pos, hfirst]
      · congr 1
        unfold endWord
        omega
      · unfold endWord
        omega
    rw [ih (fun j hj => ?_) (by unfold AtEnd; omega)]
    · rw [writeU16_of_outside, show usa + 2 + 2 * (i / 512 - (s + 1)) = usa + 2 * (i / 512 - s) by omega]
      unfold endWord
      omega
    · have := husa (2 + j)
      unfold AtEnd
      omega

/-! ## Failures -/

theorem ntfsRestoreUsa_of_size {size : BitVec 32}
    (h : readU16 record updateSequenceSize = (size >>> 9 + 1).setWidth 16) :
    ntfsRestoreUsa record size = restoreLoop (usn record) (size >>> 9).toNat (usaOff record + 2) (endWord 0) record :=
  if_neg (not_not.mpr h)

/-- It has changed nothing, or it has restored the sectors before the first one that is wrong. -/
theorem ntfsRestoreUsa_fails (record : Nat → BitVec 8) (size : BitVec 32)
    (h : (ntfsRestoreUsa record size).1 = false) :
    readU16 record updateSequenceSize ≠ (size >>> 9 + 1).setWidth 16 ∧ (ntfsRestoreUsa record size).2 = record ∨
      ∃ k < (size >>> 9).toNat, (∀ j < k, readU16 record (endWord j) = usn record) ∧
        readU16 record (endWord k) ≠ usn record ∧
        (ntfsRestoreUsa record size).2 = rounds k (usaOff record + 2) 0 record ∧
        ∀ i, ¬ AtEnd 0 k i → (ntfsRestoreUsa record size).2 i = record i := by
  by_cases hsize : readU16 record updateSequenceSize = (size >>> 9 + 1).setWidth 16
  · right
    rw [ntfsRestoreUsa_of_size hsize] at h ⊢
    rcases restoreLoop_cases (usn record) (size >>> 9).toNat (usaOff record + 2) 0 record with
      ⟨heq, -⟩ | ⟨k, hk, heq, hwords, hlast⟩
    · rw [heq] at h
      cases h
    · simp only [Nat.zero_add] at hwords hlast
      rw [heq]
      exact ⟨k, hk, hwords, hlast, rfl, fun i hi => rounds_of_not_atEnd hi⟩
  · exact .inl ⟨hsize, congrArg Prod.snd (if_pos hsize)⟩

/-- Two sectors and the number 1. The end word of the second one is not the number. -/
def tornRecord (i : Nat) : BitVec 8 :=
  if i = updateSequenceOffset then 0x30
  else if i = updateSequenceSize then 3
  else if i = 0x30 ∨ i = 0x1FE then 1
  else if i = 0x32 then 0xAA
  else 0

theorem ntfsRestoreUsa_fails_torn : (ntfsRestoreUsa tornRecord 1024).1 = false ∧
    ∃ k < 2, ∀ i, ¬ AtEnd 0 k i → (ntfsRestoreUsa tornRecord 1024).2 i = tornRecord i := by
  have hfails : (ntfsRestoreUsa tornRecord 1024).1 = false := by decide +kernel
  rcases ntfsRestoreUsa_fails tornRecord 1024 hfails with ⟨hsize, -⟩ | ⟨k, hk, -, -, -, hframe⟩
  · exact absurd (by decide +kernel) hsize
  · exact ⟨hfails, k, hk, hframe⟩

/-- The first sector is restored before the second one is looked at. -/
theorem ntfsRestoreUsa_restores_part : ¬ ∀ (record : Nat → BitVec 8) (size : BitVec 32),
    (ntfsRestoreUsa record size).1 = false → (ntfsRestoreUsa record size).2 = record := by
  intro h
  have hbyte := congrFun (h tornRecord 1024 (by decide +kernel)) 0x1FE
  revert hbyte
  decide +kernel

/-! ## Records whose array stands apart -/

/-- The array is outside of the end words and of the two fields of the header. -/
def UsaApart (record : Nat → BitVec 8) (n : Nat) : Prop :=
  ∀ i, usaOff record ≤ i → i < usaOff record + 2 * (n + 1) → ¬ AtEnd 0 n i ∧ (i < 4 ∨ 8 ≤ i)

/-- The end words go to the array, and the number takes their place. -/
def protect (number : BitVec 16) (n : Nat) (record : Nat → BitVec 8) : Nat → BitVec 8 := fun i =>
  let usa := usaOff record
  if usa ≤ i ∧ i < usa + 2 * (n + 1) then
    if i < usa + 2 then (number >>> (8 * (i - usa))).setWidth 8
    else record (endWord ((i - usa) / 2 - 1) + (i - usa) % 2)
  else if 510 ≤ i % 512 ∧ i / 512 < n then (number >>> (8 * (i % 2))).setWidth 8
  else record i

theorem atEnd_endWord {p : Nat} (hk : k < n) (hp : p < 2) : AtEnd 0 n (endWord k + p) := by
  unfold AtEnd endWord
  omega

structure IsRestored (record restored : Nat → BitVec 8) (n : Nat) : Prop where
  ends : ∀ k < n, ∀ p < 2, restored (endWord k + p) = record (usaOff record + 2 * (k + 1) + p)
  others : ∀ i, ¬ AtEnd 0 n i → restored i = record i

theorem readU16_size_iff (hn : (size >>> 9).toNat < 65535) :
    readU16 record updateSequenceSize = (size >>> 9 + 1).setWidth 16 ↔
      (readU16 record updateSequenceSize).toNat = (size >>> 9).toNat + 1 := by
  rw [← BitVec.toNat_inj, BitVec.toNat_setWidth, BitVec.toNat_add]
  have hone : (1 : BitVec 32).toNat = 1 := rfl
  omega

theorem ntfsRestoreUsa_iff (hn : (size >>> 9).toNat < 65535) : (ntfsRestoreUsa record size).1 = true ↔
    (readU16 record updateSequenceSize).toNat = (size >>> 9).toNat + 1 ∧
      ∀ k < (size >>> 9).toNat, readU16 record (endWord k) = usn record := by
  rw [← readU16_size_iff hn]
  by_cases hsize : readU16 record updateSequenceSize = (size >>> 9 + 1).setWidth 16
  · rw [ntfsRestoreUsa_of_size hsize]
    rcases restoreLoop_cases (usn record) (size >>> 9).toNat (usaOff record + 2) 0 record with
      ⟨heq, hwords⟩ | ⟨k, hk, heq, -, hlast⟩
    · simp only [Nat.zero_add] at hwords
      rw [heq]
      exact iff_of_true rfl ⟨hsize, hwords⟩
    · rw [Nat.zero_add] at hlast
      rw [heq]
      exact iff_of_false Bool.false_ne_true fun h => hlast (h.2 k hk)
  · have hfails : (ntfsRestoreUsa record size).1 = false := congrArg Prod.fst (if_pos hsize)
    rw [hfails]
    exact iff_of_false Bool.false_ne_true fun h => hsize h.1

theorem isRestored (hn : (size >>> 9).toNat < 65535) (hapart : UsaApart record (size >>> 9).toNat)
    (h : (ntfsRestoreUsa record size).1 = true) :
    IsRestored record (ntfsRestoreUsa record size).2 (size >>> 9).toNat := by
  have hsize := (readU16_size_iff hn).mpr ((ntfsRestoreUsa_iff hn).mp h).1
  rw [ntfsRestoreUsa_of_size hsize] at h ⊢
  rcases restoreLoop_cases (usn record) (size >>> 9).toNat (usaOff record + 2) 0 record with ⟨heq, -⟩ | ⟨k, -, heq, -⟩
  · rw [heq]
    refine ⟨fun k hk p hp => ?_, fun i hi => rounds_of_not_atEnd hi⟩
    refine (rounds_of_atEnd (fun i hi => (hapart _ (by omega) (by omega)).1) (atEnd_endWord hk hp)).trans ?_
    congr 1
    unfold endWord
    omega
  · rw [heq] at h
    cases h

section Protect

variable (number : BitVec 16)

theorem protect_of_outside (hi : i < usaOff record ∨ usaOff record + 2 * (n + 1) ≤ i) (hend : ¬ AtEnd 0 n i) :
    protect number n record i = record i := by
  unfold AtEnd at hend
  unfold protect
  rw [if_neg (by omega), if_neg (by omega)]

variable (hapart : UsaApart record n)

include hapart

theorem readU16_protect_header (hi : i = updateSequenceOffset ∨ i = updateSequenceSize) :
    readU16 (protect number n record) i = readU16 record i := by
  have hheader : ∀ p, 4 ≤ p → p < 8 → protect number n record p = record p := by
    intro p hlo hhi
    refine protect_of_outside number ?_ (by unfold AtEnd; omega)
    by_contra hin
    have := (hapart p (by omega) (by omega)).2
    omega
  unfold updateSequenceOffset updateSequenceSize at hi
  unfold readU16
  rw [hheader i (by omega) (by omega), hheader (i + 1) (by omega) (by omega)]

theorem readU16_protect_endWord (hk : k < n) : readU16 (protect number n record) (endWord k) = number := by
  apply Buffer.Stands.readU16
  intro p hp
  rw [Buffer.length_leBytes] at hp
  have hend := atEnd_endWord hk hp
  have hout : ¬ (usaOff record ≤ endWord k + p ∧ endWord k + p < usaOff record + 2 * (n + 1)) :=
    fun h => (hapart _ h.1 h.2).1 hend
  unfold AtEnd at hend
  rw [Buffer.getElem_leBytes, protect, if_neg hout, if_pos (by omega),
    show (endWord k + p) % 2 = p by unfold endWord; omega]

theorem usaOff_protect : usaOff (protect number n record) = usaOff record := by
  unfold usaOff
  rw [readU16_protect_header number hapart (.inl rfl)]

theorem usn_protect : usn (protect number n record) = number := by
  rw [usn, usaOff_protect number hapart]
  apply Buffer.Stands.readU16
  intro p hp
  rw [Buffer.length_leBytes] at hp
  rw [Buffer.getElem_leBytes, protect, if_pos (by omega), if_pos (by omega), Nat.add_sub_cancel_left]

end Protect

/-- **The update sequence is restored** exactly if the size and all end words are right. -/
theorem ntfsRestoreUsa_right (record : Nat → BitVec 8) (size : BitVec 32) (n : Nat) (hsectors : (size >>> 9).toNat = n)
    (hn : n < 65535) (hapart : UsaApart record n) :
    ((ntfsRestoreUsa record size).1 = true ↔ (readU16 record updateSequenceSize).toNat = n + 1 ∧
        ∀ k < n, readU16 record (endWord k) = usn record) ∧
      ((ntfsRestoreUsa record size).1 = true → IsRestored record (ntfsRestoreUsa record size).2 n) ∧
      ((readU16 record updateSequenceSize).toNat = n + 1 → ∀ number : BitVec 16,
        (ntfsRestoreUsa (protect number n record) size).1 = true ∧
          ∀ i, i < usaOff record ∨ usaOff record + 2 * (n + 1) ≤ i →
            (ntfsRestoreUsa (protect number n record) size).2 i = record i) := by
  subst hsectors
  refine ⟨ntfsRestoreUsa_iff hn, isRestored hn hapart, fun hsize number => ?_⟩
  have hoff := usaOff_protect number hapart
  have hapart' : UsaApart (protect number (size >>> 9).toNat record) (size >>> 9).toNat := by
    unfold UsaApart
    rwa [hoff]
  have hok : (ntfsRestoreUsa (protect number (size >>> 9).toNat record) size).1 = true := by
    rw [ntfsRestoreUsa_iff hn, readU16_protect_header number hapart (.inr rfl), usn_protect number hapart]
    exact ⟨hsize, fun k hk => readU16_protect_endWord number hapart hk⟩
  obtain ⟨hends, hothers⟩ := isRestored hn hapart' hok
  refine ⟨hok, fun i hi => ?_⟩
  by_cases hend : AtEnd 0 (size >>> 9).toNat i
  · -- The byte is one of an end word, which comes back from the array.
    have hbyte := hends (i / 512) (by unfold AtEnd at hend; omega) (i % 2) (by omega)
    unfold AtEnd at hend
    have hi : endWord (i / 512) + i % 2 = i := by
      unfold endWord
      omega
    rw [hoff, hi, protect, if_pos (by omega), if_neg (by omega)] at hbyte
    rw [hbyte]
    congr 1
    unfold endWord
    omega
  · rw [hothers i hend, protect_of_outside number hi hend]

theorem ntfsRestoreUsa_right_torn : UsaApart tornRecord 2 ∧ (ntfsRestoreUsa (protect 7 2 tornRecord) 1024).1 = true ∧
      (ntfsRestoreUsa (protect 7 2 tornRecord) 1024).2 0x1FE = 1 := by
  have hoff : usaOff tornRecord = 0x30 := by decide +kernel
  have hapart : UsaApart tornRecord 2 := by
    intro i
    unfold AtEnd
    omega
  obtain ⟨hok, hbytes⟩ := (ntfsRestoreUsa_right tornRecord 1024 2 (by decide) (by decide) hapart).2.2 (by decide +kernel) 7
  exact ⟨hapart, hok, hbytes 0x1FE (by omega)⟩

end Kolibri.Ntfs
