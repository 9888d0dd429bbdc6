import Kolibri.Ntfs.Code

/-! # The decoder with a pointer (`ntfs_decode_mcb_entry_ptr`) -/

namespace Kolibri.Ntfs

open Buffer

variable (entry : Nat → BitVec 8)

/-- The loop over a field, after `n` rounds. The bytes of a length go to the buffer as well. -/
def lodsField (store : Bool) (esi : Nat) (buf : Nat → BitVec 8) : Nat → Nat × BitVec 64 × (Nat → BitVec 8)
  | 0 => (esi, 0, buf)
  | n + 1 =>
    let (esi, value, buf) := lodsField store esi buf n
    let b := entry esi
    (esi + 1, value ||| b.setWidth 64 <<< (8 * n), if store then Function.update buf n b else buf)

/-- The `consumed` bytes are those that `esi` has moved by. -/
def ntfsDecodeMcbEntryPtr (buf : Nat → BitVec 8) : McbDecodeResult × (Nat → BitVec 8) :=
  let header := entry 0
  let lengthLen := (header &&& 0x0F).toNat
  if header = 0 then (⟨false, 1⟩, buf)
  else if 8 < lengthLen then (⟨false, 1⟩, buf)
  else
    let (esi, run, buf) := lodsField entry true 1 buf lengthLen
    if 0x80 ≤ entry (esi - 1) then (⟨false, esi⟩, buf)
    else
      let buf := overlay buf 0 (leBytes 8 run)
      let clusterLen := (header >>> 4).toNat
      if 8 < clusterLen then (⟨false, esi⟩, buf)
      else
        let (esi, cluster, buf) := lodsField entry false esi buf clusterLen
        let cluster :=
          if 0x80 ≤ entry (esi - 1) ∧ clusterLen < 8 then cluster ||| BitVec.allOnes 64 <<< (8 * clusterLen)
          else cluster
        (⟨true, esi⟩, overlay buf 8 (leBytes 8 cluster))

theorem lodsField_eq (store : Bool) (esi : Nat) (buf : Nat → BitVec 8) (n : Nat) :
    lodsField entry store esi buf n =
      (esi + n, leValue entry esi n, if store then fun i => if i < n then entry (esi + i) else buf i else buf) := by
  induction n with
  | zero => simp [lodsField, leValue]
  | succ n ih =>
    rw [lodsField, ih]
    cases store with
    | false => rfl
    | true =>
      refine Prod.ext rfl (Prod.ext rfl (funext fun i => ?_))
      by_cases hi : i = n
      · simp [hi]
      · have hlt : i < n + 1 ↔ i < n := by omega
        simp only [if_true, Function.update_of_ne hi, hlt]

/-- **Both forms decode alike** what is as long as its header says, also where they reject it. -/
theorem ntfsDecodeMcbEntryPtr_eq (len : Nat) (buf : Nat → BitVec 8)
    (hlen : 1 + (entry 0 &&& 0x0F).toNat + (entry 0 >>> 4).toNat ≤ len) :
    ntfsDecodeMcbEntryPtr entry buf = ntfsDecodeMcbEntry entry len buf := by
  have hlast : ∀ n, (if n = 0 then entry 0 else entry n) = entry n := by
    intro n
    split_ifs with hn
    · rw [hn]
    · rfl
  have hcluster : ∀ l n, (if n = 0 then entry l else entry (1 + l + n - 1)) = entry (1 + l + n - 1) := by
    intro l n
    split_ifs with hn
    · rw [hn, Nat.add_zero, Nat.add_sub_cancel_left]
    · rfl
  have hlen0 : len ≠ 0 := by omega
  -- The slice form takes the size from the copied bytes, the pointer form as it copies them.
  have hrun : ∀ n, leValue (fun i => if i < n then entry (1 + i) else buf i) 0 n = leValue entry 1 n := by
    intro n
    refine leValue_congr fun i hi => ?_
    rw [Nat.zero_add, if_pos hi]
  unfold ntfsDecodeMcbEntryPtr ntfsDecodeMcbEntry
  simp only [lodsField_eq, hlast, hcluster, hrun, hlen0, hlen.not_gt,
    (Nat.le_of_add_right_le hlen).not_gt, Nat.add_sub_cancel_left, Bool.false_eq_true, if_true, if_false]

theorem ntfsDecodeMcbEntryPtr_eq_no_size :
    1 + (0x10#8 &&& 0x0F).toNat + (0x10#8 >>> 4).toNat ≤ 2 ∧
      ntfsDecodeMcbEntryPtr (fun i => if i = 0 then 0x10 else 0xFF) (fun _ => 7) =
        ntfsDecodeMcbEntry (fun i => if i = 0 then 0x10 else 0xFF) 2 (fun _ => 7) :=
  ⟨by decide, ntfsDecodeMcbEntryPtr_eq _ 2 _ (by decide)⟩

end Kolibri.Ntfs
