import Kolibri.Ntfs.UpdateSequence

/-! # Writing a record (`writeRecord` of `fs/ntfs.inc`)

Each write has a number of its own, which tells a write that was cut off.
-/

namespace Kolibri.Ntfs

open Bytes Function

/-- `esi`, `edi` and the record: an end word goes to the array, and the number takes its place. -/
def recordRound (ax : BitVec 16) : Nat × Nat × (Nat → BitVec 8) → Nat × Nat × (Nat → BitVec 8)
  | (esi, edi, record) =>
    let record := writeU16 record edi (readU16 record (esi + 510))
    (esi + 512, edi + 2, writeU16 record (esi + 510) ax)

/-- The record for the disk, and how many sectors it has. -/
def writeRecord (record : Nat → BitVec 8) : (Nat → BitVec 8) × BitVec 32 :=
  let edi := usaOff record
  let ax := readU16 record edi + 1
  let record := writeU16 record edi ax
  let ecx := (readU16 record updateSequenceSize).setWidth 32 - 1
  -- With 0 in `ecx`, `loop` makes `2 ^ 32` rounds.
  (((recordRound ax)^[(ecx - 1).toNat + 1] (0, edi + 2, record)).2.2, ecx)

variable {record old new : Nat → BitVec 8} {n i : Nat} {size : BitVec 32}

theorem rounds_eq_protect (hhi : usaOff record + 2 * (n + 1) ≤ 510) (number : BitVec 16) :
    (recordRound number)^[n] (0, usaOff record + 2, writeU16 record (usaOff record) number) =
      (512 * n, usaOff record + 2 * (n + 1), protect number n record) := by
  induction n with
  | zero =>
    refine Prod.ext rfl (Prod.ext rfl (funext fun i => ?_))
    dsimp only [iterate_zero, id_eq, protect]
    split_ifs <;> try omega
    · exact if_pos (by omega)
    · exact if_neg (by omega)
  | succ n ih =>
    rw [iterate_succ_apply', ih (by omega)]
    refine Prod.ext rfl (Prod.ext rfl (funext fun i => ?_))
    dsimp only [recordRound]
    by_cases hend : 512 * n + 510 ≤ i ∧ i < 512 * n + 510 + 2
    · refine (if_pos hend).trans ?_
      rw [protect, if_neg (by omega), if_pos (by omega), show i - (512 * n + 510) = i % 2 by omega]
      rfl
    rw [writeU16_of_outside _ _ (by omega), writeU16_readU16]
    unfold protect endWord
    dsimp only
    split_ifs <;> try omega
    · congr 1
      omega
    all_goals rfl

theorem writeRecord_eq (hlo : 8 ≤ usaOff record) (hhi : usaOff record + 2 * (n + 1) ≤ 510) (hpos : 0 < n)
    (hsize : (readU16 record updateSequenceSize).toNat = n + 1) :
    writeRecord record = (protect (usn record + 1) n record, BitVec.ofNat 32 n) := by
  have hheader : readU16 (writeU16 record (usaOff record) (usn record + 1)) updateSequenceSize =
      readU16 record updateSequenceSize := by
    unfold readU16 updateSequenceSize
    rw [writeU16_of_outside, writeU16_of_outside] <;> omega
  have hecx : (readU16 record updateSequenceSize).setWidth 32 - 1 = BitVec.ofNat 32 n := by bv_omega
  have hrounds : (BitVec.ofNat 32 n - 1).toNat + 1 = n := by bv_omega
  unfold writeRecord
  dsimp only
  rw [← usn, hheader, hecx, hrounds, rounds_eq_protect hhi]

/-! ## A write that is cut off -/

variable (done : Nat → Bool)

/-- Only the sectors in `done` have reached the disk. -/
def torn (old new : Nat → BitVec 8) : Nat → BitVec 8 := fun i => if done (i / 512) then new i else old i

theorem readU16_torn (hi : i % 512 < 511) :
    readU16 (torn done old new) i = if done (i / 512) then readU16 new i else readU16 old i := by
  unfold readU16 torn
  rw [show (i + 1) / 512 = i / 512 by omega]
  split_ifs <;> rfl

/-- Two records with numbers of their own do not mix. -/
theorem restore_torn_iff (hlt : (size >>> 9).toNat < 65535) (hhi : usaOff old < 511)
    (hoff : usaOff new = usaOff old) (hne : usn new ≠ usn old) (hold : (ntfsRestoreUsa old size).1 = true)
    (hnew : (ntfsRestoreUsa new size).1 = true) :
    (ntfsRestoreUsa (torn done old new) size).1 = true ↔ ∀ k < (size >>> 9).toNat, done k = done 0 := by
  rw [ntfsRestoreUsa_iff hlt] at hold hnew ⊢
  have hoff' : usaOff (torn done old new) = usaOff old := by
    unfold usaOff at *
    rw [readU16_torn done (by decide)]
    split_ifs
    · exact hoff
    · rfl
  have husn : usn (torn done old new) = if done 0 then usn new else usn old := by
    rw [usn, hoff', readU16_torn done (by omega), Nat.div_eq_of_lt (by omega), usn, usn, hoff]
  have hword (k : Nat) (hk : k < (size >>> 9).toNat) :
      readU16 (torn done old new) (endWord k) = if done k then usn new else usn old := by
    rw [readU16_torn done (by unfold endWord; omega), hold.2 k hk, hnew.2 k hk,
      show endWord k / 512 = k by unfold endWord; omega]
  rw [husn, readU16_torn done (by decide)]
  constructor
  · rintro ⟨-, h⟩ k hk
    have hsame := h k hk
    rw [hword k hk] at hsame
    cases hdone : done k <;> cases hfirst : done 0 <;> simp_all
  · intro h
    refine ⟨?_, fun k hk => by rw [hword k hk, h k hk]⟩
    split_ifs
    · exact hnew.1
    · exact hold.1

/-- **A torn write is noticed.** The record can be read exactly if all of its sectors are new or all are old. -/
theorem writeRecord_torn_iff (hsectors : (size >>> 9).toNat = n) (hpos : 0 < n) (hlo : 8 ≤ usaOff record)
    (hhi : usaOff record + 2 * (n + 1) ≤ 510) (hsize : (readU16 record updateSequenceSize).toNat = n + 1)
    (hold : (ntfsRestoreUsa old size).1 = true) (hoff : usaOff old = usaOff record) (husn : usn old = usn record) :
    (ntfsRestoreUsa (torn done old (writeRecord record).1) size).1 = true ↔ ∀ k < n, done k = done 0 := by
  have hapart : UsaApart record n := fun i hi hi' => by
    unfold AtEnd
    omega
  subst hsectors
  have hlt : (size >>> 9).toNat < 65535 := by omega
  rw [writeRecord_eq hlo hhi hpos hsize]
  apply restore_torn_iff done hlt (by omega)
  · rw [usaOff_protect _ hapart, hoff]
  · rw [usn_protect _ hapart, husn]
    bv_omega
  · exact hold
  · rw [ntfsRestoreUsa_iff hlt, readU16_protect_header _ hapart (.inr rfl), usn_protect _ hapart]
    exact ⟨hsize, fun k hk => readU16_protect_endWord _ hapart hk⟩

theorem writeRecord_torn_whole : (ntfsRestoreUsa
    (torn (fun _ => true) (protect 1 2 tornRecord) (writeRecord tornRecord).1) 1024).1 = true :=
  (writeRecord_torn_iff _ (show _ = 2 from rfl) (by decide) (by decide +kernel) (by decide +kernel)
    (by decide +kernel) (by decide +kernel) (by decide +kernel) (by decide +kernel)).mpr fun _ _ => rfl

end Kolibri.Ntfs
