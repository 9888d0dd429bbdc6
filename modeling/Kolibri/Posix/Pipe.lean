import Kolibri.Userspace
import Kolibri.Posix.Handles

/-! # Read and write on pipes (`posix/posix.inc`, `posix/pipe.inc`)

A call gets the list of the states in which it finds the pipe, one for each pass through `.again`. If the
list ends, the caller still sleeps.
-/

namespace Kolibri.Posix

open Userspace Function

def ebadf : BitVec 32 := 9
def epipe : BitVec 32 := 32
def fRead : BitVec 32 := 1
def fWrite : BitVec 32 := 2
def pipeBufferSize : Nat := 4096

def pipeMagic : BitVec 32 := 0x45504950

structure Filed where
  magic : BitVec 32
  handle : BitVec 32
  mode : BitVec 32

structure Pipe where
  readers : BitVec 32
  writers : BitVec 32
  count : BitVec 32
  readEnd : BitVec 32
  writeEnd : BitVec 32
  ring : Nat → BitVec 8

/-- The value is `none` while the call sleeps. `pipes` are those after each transfer. -/
structure Transfer where
  ret : Option (BitVec 32)
  touched : List Nat
  stored : List (BitVec 8)
  pipes : List Pipe

def movsb (start ecx : BitVec 32) : List Nat :=
  (List.range ecx.toNat).map fun i => (start.toNat + i) % 2 ^ 32

def checkCount (avail want : BitVec 32) : BitVec 32 := if avail < want then avail else want

def pipeRead : List Pipe → BitVec 32 → BitVec 32 → Transfer
  | [], _, _ => ⟨none, [], [], []⟩
  | pipe :: later, edx, esi =>
    if pipe.writers = 0 then ⟨some 0, [], [], []⟩
    else if pipe.count = 0 then pipeRead later edx esi
    else
      let ecx := checkCount pipe.count esi
      let bytes := (List.range ecx.toNat).map fun i => pipe.ring ((pipe.readEnd.toNat + i) % pipeBufferSize)
      ⟨some ecx, movsb edx ecx, bytes,
        [{ pipe with count := pipe.count - ecx, readEnd := (pipe.readEnd + ecx) &&& 0xFFF }]⟩

/-- `mem` is the caller's memory, `ebx` counts the bytes to go. -/
def pipeWrite (mem : Nat → BitVec 8) : List Pipe → BitVec 32 → BitVec 32 → BitVec 32 → Transfer
  | [], _, _, _ => ⟨none, [], [], []⟩
  | pipe :: later, esi, ebx, written =>
    if pipe.readers = 0 then ⟨some (-epipe), [], [], []⟩
    else
      let space := 4096 - pipe.count
      if space = 0 then pipeWrite mem later esi ebx written
      else
        let ecx := checkCount space ebx
        let ring := (List.range ecx.toNat).foldl (fun r i =>
          update r ((pipe.writeEnd.toNat + i) % pipeBufferSize) (mem ((esi.toNat + i) % 2 ^ 32))) pipe.ring
        let filled :=
          { pipe with count := pipe.count + ecx, writeEnd := (pipe.writeEnd + ecx) &&& 0xFFF, ring }
        if ebx - ecx = 0 then ⟨some (written + ecx), movsb esi ecx, [], [filled]⟩
        else
          let rest := pipeWrite mem later (esi + ecx) (ebx - ecx) (written + ecx)
          ⟨rest.ret, movsb esi ecx ++ rest.touched, [], filled :: rest.pipes⟩

/-- The tests that `sys_read` and `sys_write` make on a handle. -/
def opened (htab : Nat → BitVec 32) (files : BitVec 32 → Filed) (flag ecx : BitVec 32) : Bool :=
  let ebp := htab ecx.toNat
  ! (ecx ≤ stderrFileno) && decide (ecx.toNat < htabLen) && decide (isRegionUserspace ebp 4 ≠ 1) &&
    (files ebp).magic == pipeMagic && (files ebp).handle == ecx && (files ebp).mode &&& flag != 0

def badHandle : Transfer := ⟨some (-ebadf), [], [], []⟩

def sysRead (htab : Nat → BitVec 32) (files : BitVec 32 → Filed) (pipes : List Pipe)
    (ecx edx esi : BitVec 32) : Transfer :=
  if opened htab files fRead ecx then pipeRead pipes edx esi else badHandle

def sysWrite (htab : Nat → BitVec 32) (files : BitVec 32 → Filed) (mem : Nat → BitVec 8)
    (pipes : List Pipe) (ecx edx esi : BitVec 32) : Transfer :=
  if opened htab files fWrite ecx then pipeWrite mem pipes edx esi 0 else badHandle

/-! ## The caller's buffer -/

def InUser (buf count : BitVec 32) : Prop := buf.toNat + count.toNat ≤ 0x80000000

/-- For a buffer that is not below `OS_BASE`, nothing is touched and only errors are returned. -/
structure Respects (buf count : BitVec 32) (t : Transfer) : Prop where
  inside : ∀ a ∈ t.touched, buf.toNat ≤ a ∧ a < buf.toNat + count.toNat ∧ InUser buf count
  refused : ¬ InUser buf count → t.touched = [] ∧ ∀ eax, t.ret = some eax → eax.toInt < 0

theorem respects_bad_handle (buf count : BitVec 32) : Respects buf count badHandle := by
  refine ⟨by simp [badHandle], fun _ => ⟨rfl, ?_⟩⟩
  rintro eax ⟨⟩
  decide

theorem mem_movsb {start ecx : BitVec 32} {n : Nat} (hle : ecx.toNat ≤ n)
    (hfit : start.toNat + n ≤ 0x80000000) {a : Nat} (ha : a ∈ movsb start ecx) :
    start.toNat ≤ a ∧ a < start.toNat + ecx.toNat := by
  unfold movsb at ha
  rw [List.mem_map] at ha
  obtain ⟨i, hi, rfl⟩ := ha
  rw [List.mem_range] at hi
  rw [Nat.mod_eq_of_lt (by omega)]
  omega

theorem check_count_le (avail want : BitVec 32) : (checkCount avail want).toNat ≤ want.toNat := by
  unfold checkCount
  split_ifs with h
  · rw [BitVec.lt_def] at h
    omega
  · exact le_refl _

/-! ## `pipe_read` -/

/-- The reader finds an empty pipe with writers every time. -/
def ReadSleeps (pipes : List Pipe) : Prop := ∀ pipe ∈ pipes, pipe.writers ≠ 0 ∧ pipe.count = 0

variable {buf count : BitVec 32} {pipes : List Pipe}

theorem pipe_read_inside (pipes : List Pipe) (h : InUser buf count) :
    ∀ a ∈ (pipeRead pipes buf count).touched, buf.toNat ≤ a ∧ a < buf.toNat + count.toNat := by
  induction pipes with
  | nil => simp [pipeRead]
  | cons pipe later ih =>
    unfold pipeRead
    split_ifs
    · simp
    · exact ih
    · intro a ha
      have hle := check_count_le pipe.count count
      have hmem := mem_movsb hle h ha
      omega

theorem pipe_read_sleeps (h : ReadSleeps pipes) (buf count : BitVec 32) :
    pipeRead pipes buf count = ⟨none, [], [], []⟩ := by
  induction pipes with
  | nil => rfl
  | cons pipe later ih =>
    obtain ⟨hwriters, hcount⟩ := h pipe List.mem_cons_self
    unfold pipeRead
    rw [if_neg hwriters, if_pos hcount]
    exact ih fun p hp => h p (List.mem_cons_of_mem _ hp)

theorem pipe_read_returns (h : ¬ ReadSleeps pipes) (buf count : BitVec 32) :
    ∃ eax, (pipeRead pipes buf count).ret = some eax ∧ (pipeRead pipes buf count).touched = movsb buf eax := by
  induction pipes with
  | nil => exact absurd (fun p hp => by cases hp) h
  | cons pipe later ih =>
    unfold pipeRead
    split_ifs with hwriters hcount
    · exact ⟨0, rfl, rfl⟩
    · apply ih
      intro hlater
      refine h fun p hp => ?_
      rcases List.mem_cons.mp hp with rfl | hp
      · exact ⟨hwriters, hcount⟩
      · exact hlater p hp
    · exact ⟨_, rfl, rfl⟩

theorem movsb_eq_nil_iff (start ecx : BitVec 32) : movsb start ecx = [] ↔ ecx.toNat = 0 := by
  simp [movsb]

theorem respects_pipe_read_iff (pipes : List Pipe) (buf count : BitVec 32) :
    Respects buf count (pipeRead pipes buf count) ↔ InUser buf count ∨ ReadSleeps pipes := by
  constructor
  · intro h
    by_contra hno
    rw [not_or] at hno
    obtain ⟨hout, hawake⟩ := hno
    obtain ⟨eax, hret, htouched⟩ := pipe_read_returns hawake buf count
    obtain ⟨hnone, herror⟩ := h.refused hout
    rw [htouched, movsb_eq_nil_iff] at hnone
    -- Nothing was stored, so the value is 0, which is no error.
    have hneg := herror eax hret
    rw [BitVec.eq_of_toNat_eq (x := eax) (y := 0) hnone] at hneg
    exact absurd hneg (by decide)
  · rintro (hin | hsleeps)
    · refine ⟨fun a ha => ?_, fun hout => absurd hin hout⟩
      have hmem := pipe_read_inside pipes hin a ha
      exact ⟨hmem.1, hmem.2, hin⟩
    · rw [pipe_read_sleeps hsleeps]
      exact ⟨by simp, fun _ => ⟨rfl, by simp⟩⟩

/-! ## `pipe_write` -/

def WriteFails : List Pipe → Prop
  | [] => True
  | pipe :: later => pipe.readers = 0 ∨ (4096 - pipe.count = 0 ∧ WriteFails later)

variable (mem : Nat → BitVec 8)

theorem pipe_write_inside (pipes : List Pipe) (h : InUser buf count) (written : BitVec 32) :
    ∀ a ∈ (pipeWrite mem pipes buf count written).touched, buf.toNat ≤ a ∧ a < buf.toNat + count.toNat := by
  induction pipes generalizing buf count written with
  | nil => simp [pipeWrite]
  | cons pipe later ih =>
    unfold pipeWrite
    simp only
    have hle := check_count_le (4096 - pipe.count) count
    generalize checkCount (4096 - pipe.count) count = ecx at hle ⊢
    have hfirst : ∀ a ∈ movsb buf ecx, buf.toNat ≤ a ∧ a < buf.toNat + count.toNat := by
      intro a ha
      have hmem := mem_movsb hle h ha
      omega
    unfold InUser at h
    split_ifs with hreaders hspace hlast
    · simp
    · exact ih h written
    · exact hfirst
    · -- The rest of the buffer starts where the chunk ends.
      have hbuf : (buf + ecx).toNat = buf.toNat + ecx.toNat := by
        rw [BitVec.toNat_add, Nat.mod_eq_of_lt (by omega)]
      have hcount : (count - ecx).toNat = count.toNat - ecx.toNat :=
        BitVec.toNat_sub_of_le (by rw [BitVec.le_def]; exact hle)
      intro a ha
      rcases List.mem_append.mp ha with ha | ha
      · exact hfirst a ha
      · have hrest := ih (by unfold InUser; omega) (written + ecx) a ha
        omega

theorem pipe_write_fails (h : WriteFails pipes) (buf count written : BitVec 32) :
    (pipeWrite mem pipes buf count written).touched = [] ∧
      ∀ eax, (pipeWrite mem pipes buf count written).ret = some eax → eax.toInt < 0 := by
  induction pipes with
  | nil => exact ⟨rfl, by rintro eax ⟨⟩⟩
  | cons pipe later ih =>
    unfold pipeWrite
    split
    · refine ⟨rfl, ?_⟩
      rintro eax ⟨⟩
      decide
    · next hreaders =>
      obtain ⟨hfull, hlater⟩ := h.resolve_left hreaders
      simp only [hfull, if_true]
      exact ih hlater

theorem pipe_write_transfers (h : ¬ WriteFails pipes) (buf count written : BitVec 32) :
    (count.toNat = 0 → (pipeWrite mem pipes buf count written).ret = some written) ∧
      (count.toNat ≠ 0 → (pipeWrite mem pipes buf count written).touched ≠ []) := by
  induction pipes with
  | nil => exact absurd trivial h
  | cons pipe later ih =>
    unfold WriteFails at h
    rw [not_or] at h
    obtain ⟨hreaders, hroom⟩ := h
    unfold pipeWrite
    rw [if_neg hreaders]
    by_cases hspace : 4096 - pipe.count = 0
    · simp only [hspace, if_true]
      exact ih fun hlater => hroom ⟨hspace, hlater⟩
    simp only [hspace, if_false]
    constructor
    · intro hzero
      obtain rfl : count = 0 := BitVec.eq_of_toNat_eq hzero
      have hecx : checkCount (4096 - pipe.count) 0 = 0 :=
        BitVec.eq_of_toNat_eq (Nat.le_zero.mp (check_count_le _ _))
      rw [hecx, if_pos (by decide)]
      simp
    intro hpos
    have hecx : (checkCount (4096 - pipe.count) count).toNat ≠ 0 := by
      unfold checkCount
      split_ifs
      · exact fun h0 => hspace (BitVec.eq_of_toNat_eq h0)
      · exact hpos
    have hmoved : movsb buf (checkCount (4096 - pipe.count) count) ≠ [] := by
      rwa [Ne, movsb_eq_nil_iff]
    split_ifs
    · exact hmoved
    · exact List.append_ne_nil_of_left_ne_nil hmoved _

theorem respects_pipe_write_iff (pipes : List Pipe) (buf count : BitVec 32) :
    Respects buf count (pipeWrite mem pipes buf count 0) ↔ InUser buf count ∨ WriteFails pipes := by
  constructor
  · intro h
    by_contra hno
    rw [not_or] at hno
    obtain ⟨hout, hroom⟩ := hno
    obtain ⟨hempty, hsome⟩ := pipe_write_transfers mem hroom buf count 0
    obtain ⟨hnone, herror⟩ := h.refused hout
    by_cases hzero : count.toNat = 0
    · exact absurd (herror 0 (hempty hzero)) (by decide)
    · exact hsome hzero hnone
  · rintro (hin | hfails)
    · refine ⟨fun a ha => ?_, fun hout => absurd hin hout⟩
      have hmem := pipe_write_inside mem pipes hin 0 a ha
      exact ⟨hmem.1, hmem.2, hin⟩
    · obtain ⟨hnone, herror⟩ := pipe_write_fails mem hfails buf count 0
      exact ⟨by rw [hnone]; simp, fun _ => ⟨hnone, herror⟩⟩

/-- **When `read` and `write` keep to the kernel boundary.** Neither looks at the buffer address, so for a buffer that is
not in user space it is luck. -/
theorem sys_read_write_respect_iff (htab : Nat → BitVec 32) (files : BitVec 32 → Filed)
    (mem : Nat → BitVec 8) (pipes : List Pipe) (ecx edx esi : BitVec 32) :
    (Respects edx esi (sysRead htab files pipes ecx edx esi) ↔
      opened htab files fRead ecx = false ∨ InUser edx esi ∨ ReadSleeps pipes) ∧
    (Respects edx esi (sysWrite htab files mem pipes ecx edx esi) ↔
      opened htab files fWrite ecx = false ∨ InUser edx esi ∨ WriteFails pipes) := by
  unfold sysRead sysWrite
  constructor
  · cases hopened : opened htab files fRead ecx with
    | true => simp only [if_true, respects_pipe_read_iff, Bool.true_eq_false, false_or]
    | false => simp [respects_bad_handle]
  · cases hopened : opened htab files fWrite ecx with
    | true => simp only [if_true, respects_pipe_write_iff, Bool.true_eq_false, false_or]
    | false => simp [respects_bad_handle]

def pipeTab : Nat → BitVec 32 := fun i => if i = 3 then 0x80001000 else 0x80002000

def pipeFiles : BitVec 32 → Filed := fun a =>
  if a = 0x80001000 then ⟨pipeMagic, 3, fRead⟩ else ⟨pipeMagic, 4, fWrite⟩

def twoBytes : Pipe := ⟨1, 1, 2, 0, 2, fun _ => 0x41⟩

/-- A read to a kernel address overwrites the kernel, and a write from one leaks it. -/
theorem read_write_kernel_memory :
    (sysRead pipeTab pipeFiles [twoBytes] 3 0x80003000 2).ret = some 2 ∧
    (sysRead pipeTab pipeFiles [twoBytes] 3 0x80003000 2).touched = [0x80003000, 0x80003001] ∧
    (sysWrite pipeTab pipeFiles (fun _ => 0) [twoBytes] 4 0x80003000 2).ret = some 2 ∧
    (sysWrite pipeTab pipeFiles (fun _ => 0) [twoBytes] 4 0x80003000 2).touched = [0x80003000, 0x80003001] := by
  decide +kernel

end Kolibri.Posix
