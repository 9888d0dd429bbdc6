import Kolibri.Lib.Bytes

/-! # The gates for user pointers (`userspace.rs`, `fs_operation_safe.rs`)

`file_system_is_operation_safe` asks `is_region_userspace` about the buffer of a file system call.
-/

namespace Kolibri.Userspace

open Bytes

def osBase : BitVec 32 := 0x80000000

/-- 1 stands for the zero flag set, which is "accept" at every caller. -/
def isRegionUserspace (base len : BitVec 32) : BitVec 32 :=
  if base > osBase - 1 then 0
  else
    let sum := base + len
    let carry := BitVec.uaddOverflow base len
    -- `add` leaves the zero flag set if it wraps to 0.
    if carry then (if sum = 0 then 1 else 0)
    else if sum > osBase then 0
    else 1

/-! ## The buffer of a file system call -/

def bdvkCp866 : BitVec 32 := 304
def bdvkUnicode : BitVec 32 := 560
def bdvkHeader : BitVec 32 := 32
def subfn5Len : BitVec 32 := 40
def subfn6Len : BitVec 32 := 32

variable (subfn encoding countOrSize : BitVec 32)

/-- `none` is the `.switch_none` path of an unknown subfunction. -/
def fsOpSafeBufferLen : Option (BitVec 32) :=
  if subfn = 0 then some countOrSize
  else if subfn = 1 then
    let bdvk := if encoding ≤ 1 then bdvkCp866 else bdvkUnicode
    some (bdvk * countOrSize + bdvkHeader)
  else if subfn ≤ 3 then some countOrSize
  else if subfn = 5 then some subfn5Len
  else if subfn = 6 then some subfn6Len
  else none

/-- The copy of `is_region_userspace` inside `fs_operation_safe.rs`. -/
def regionGateZf (base len : BitVec 32) : BitVec 32 := isRegionUserspace base len

def offSubfn : Nat := 0
def offEncoding : Nat := 8
def offCountOrSize : Nat := 12
def offBufferBase : Nat := 16

/-- `inf` is the information structure of the call. -/
def fileSystemIsOperationSafe (inf : Nat → BitVec 8) : BitVec 32 :=
  let subfn := readU32 inf offSubfn
  let encoding := readU32 inf offEncoding
  let countOrSize := readU32 inf offCountOrSize
  let base := readU32 inf offBufferBase
  match fsOpSafeBufferLen subfn encoding countOrSize with
  | none => 1
  | some len => regionGateZf base len

/-! ## What the gates accept -/

/-- A region is accepted if it ends at `OS_BASE` or below, or if its end wraps to 0 exactly. -/
theorem is_region_userspace_spec (base len : BitVec 32) :
    isRegionUserspace base len = 1 ↔
      base.toNat < 2 ^ 31 ∧ (base.toNat + len.toNat ≤ 2 ^ 31 ∨ base.toNat + len.toNat = 2 ^ 32) := by
  have hlow : base > osBase - 1 ↔ 2 ^ 31 ≤ base.toNat := by
    rw [gt_iff_lt, BitVec.lt_def]
    exact Iff.rfl
  simp only [isRegionUserspace, BitVec.uaddOverflow, decide_eq_true_eq]
  split_ifs with h1 h2 h3 h4
  · -- The base is a kernel address.
    rw [hlow] at h1
    simp only [BitVec.reduceEq, false_iff, not_and]
    omega
  · -- The sum wraps to 0.
    have hsum : (base.toNat + len.toNat) % 2 ^ 32 = 0 := by rw [← BitVec.toNat_add, h3]; rfl
    rw [hlow] at h1
    simp only [true_iff]
    omega
  · -- The sum wraps to something else.
    have hsum : (base.toNat + len.toNat) % 2 ^ 32 ≠ 0 := by
      rw [← BitVec.toNat_add]
      intro h0
      exact h3 (BitVec.eq_of_toNat_eq h0)
    simp only [BitVec.reduceEq, false_iff, not_and]
    omega
  · rw [gt_iff_lt, BitVec.lt_def, BitVec.toNat_add, Nat.mod_eq_of_lt (by omega)] at h4
    have hos : osBase.toNat = 2 ^ 31 := rfl
    simp only [BitVec.reduceEq, false_iff, not_and]
    omega
  · rw [gt_iff_lt, BitVec.lt_def, BitVec.toNat_add, Nat.mod_eq_of_lt (by omega)] at h4
    have hos : osBase.toNat = 2 ^ 31 := rfl
    rw [hlow] at h1
    simp only [true_iff]
    omega

/-- In unbounded integers. Subfunction 1 writes a header of 32 bytes and `countOrSize` directory entries. -/
def touchedLen : Option Nat :=
  if subfn = 0 ∨ subfn = 2 ∨ subfn = 3 then some countOrSize.toNat
  else if subfn = 1 then
    some (32 + (if encoding.toNat ≤ 1 then 304 else 560) * countOrSize.toNat)
  else if subfn = 5 then some 40
  else if subfn = 6 then some 32
  else none

theorem subfn_le_three {subfn : BitVec 32} (h0 : subfn ≠ 0) (h1 : subfn ≠ 1) : subfn ≤ 3 ↔ subfn = 2 ∨ subfn = 3 := by
  bv_omega

theorem fs_op_safe_buffer_len_spec :
    (fsOpSafeBufferLen subfn encoding countOrSize).map BitVec.toNat =
      (touchedLen subfn encoding countOrSize).map (· % 2 ^ 32) := by
  have hcount := Nat.mod_eq_of_lt countOrSize.isLt
  unfold fsOpSafeBufferLen touchedLen
  by_cases h0 : subfn = 0
  · simp [h0, hcount]
  by_cases h1 : subfn = 1
  · subst h1
    have henc : encoding ≤ 1 ↔ encoding.toNat ≤ 1 := by rw [BitVec.le_def]; rfl
    simp only [henc, bdvkHeader, bdvkCp866, bdvkUnicode, BitVec.reduceEq, if_false, if_true, or_false,
      Option.map_some, Option.some.injEq, BitVec.toNat_add, BitVec.toNat_mul]
    split_ifs with he
    · show (304 * countOrSize.toNat % 2 ^ 32 + 32) % 2 ^ 32 = _
      omega
    · show (560 * countOrSize.toNat % 2 ^ 32 + 32) % 2 ^ 32 = _
      omega
  by_cases h23 : subfn = 2 ∨ subfn = 3
  · simp only [h0, h1, (subfn_le_three h0 h1).mpr h23, h23, if_true, if_false, or_true, Option.map_some, hcount]
  · simp only [h0, h1, subfn_le_three h0 h1, h23, if_false, false_or]
    split_ifs <;> rfl

/-- **What the file system gate lets through**: user space, except if the end or the length wraps. -/
theorem file_system_gate_sound_iff (inf : Nat → BitVec 8) (len : Nat)
    (hlen : touchedLen (readU32 inf 0) (readU32 inf 8) (readU32 inf 12) = some len) :
    (fileSystemIsOperationSafe inf = 1 → (readU32 inf 16).toNat + len ≤ 0x80000000) ↔
      ¬ ((readU32 inf 16).toNat < 0x80000000 ∧ ((readU32 inf 16).toNat + len % 2 ^ 32 = 2 ^ 32 ∨
          (2 ^ 32 ≤ len ∧ (readU32 inf 16).toNat + len % 2 ^ 32 ≤ 0x80000000))) := by
  have hmap := fs_op_safe_buffer_len_spec (readU32 inf 0) (readU32 inf 8) (readU32 inf 12)
  rw [hlen, Option.map_some, Option.map_eq_some_iff] at hmap
  obtain ⟨wrapped, hwrapped, hmod⟩ := hmap
  have hsafe : fileSystemIsOperationSafe inf = isRegionUserspace (readU32 inf 16) wrapped := by
    simp [fileSystemIsOperationSafe, regionGateZf, offSubfn, offEncoding, offCountOrSize, offBufferBase, hwrapped]
  rw [hsafe, is_region_userspace_spec, hmod]
  omega

def infStruct (subfn encoding countOrSize base : BitVec 32) : Nat → BitVec 8 :=
  writeU32 (writeU32 (writeU32 (writeU32 (fun _ => 0) 0 subfn) 8 encoding) 12 countOrSize) 16 base

theorem file_system_gate_sound_small :
    fileSystemIsOperationSafe (infStruct 0 0 0x200 0x1000) = 1 ∧
    (readU32 (infStruct 0 0 0x200 0x1000) 16).toNat + 0x200 ≤ 0x80000000 :=
  ⟨by decide, (file_system_gate_sound_iff (infStruct 0 0 0x200 0x1000) 0x200 (by decide)).mpr
    (by decide) (by decide)⟩

/-- A read of 4 GiB - 1 bytes to address 1, and a directory listing of 2^28 entries to address 0x1000. -/
theorem file_system_gate_accepts_kernel :
    (fileSystemIsOperationSafe (infStruct 0 0 0xFFFFFFFF 1) = 1 ∧
      touchedLen 0 0 0xFFFFFFFF = some 0xFFFFFFFF ∧ ¬ 1 + 0xFFFFFFFF ≤ 0x80000000) ∧
    (fileSystemIsOperationSafe (infStruct 1 0 0x10000000 0x1000) = 1 ∧
      touchedLen 1 0 0x10000000 = some (32 + 304 * 0x10000000) ∧
      ¬ 0x1000 + (32 + 304 * 0x10000000) ≤ 0x80000000) := by
  decide

end Kolibri.Userspace
