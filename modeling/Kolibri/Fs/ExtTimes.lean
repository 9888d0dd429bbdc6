import Kolibri.Lib.Bytes
import Kolibri.Time.Calendar

/-! # Times of an EXT inode (`ext_set_file_info.rs`, `ext_read_all_times.rs`, `ext_write_time.rs`)

Seconds since 1970, signed. Two bits of an extra field count the wraps of the 32 bits.
-/

namespace Kolibri.ExtTimes

open Bytes Calendar BitVec

abbrev Inode := Nat → BitVec 8

def unixtimeToKosOffset : BitVec 32 := 978307200

/-! ## Reading -/

variable (iTime extra : BitVec 32)

def extUnixToSecs : BitVec 32 :=
  let edx := extra &&& 3
  let edx := if iTime.toInt < 0 then edx - 1 else edx
  let eax := iTime - unixtimeToKosOffset
  let edx := edx - if iTime < unixtimeToKosOffset then 1 else 0
  if edx.toInt < 0 then 0
  else if edx ≠ 0 then 0xFFFFFFFF
  else eax

def inodeATime : Nat := 8
def inodeCTime : Nat := 12
def inodeMTime : Nat := 16
def inodeFeatureFlags : Nat := 32
def inodeExtraISize : Nat := 128
def inodeCTimeExtra : Nat := 132
def inodeMTimeExtra : Nat := 136
def inodeATimeExtra : Nat := 140
def inodeCrTime : Nat := 144
def inodeCrTimeExtra : Nat := 148

structure Times where
  create : BdfeTime
  access : BdfeTime
  modify : BdfeTime

def extReadTime : Option BdfeTime := fsTime2bdfe (extUnixToSecs iTime extra)

variable (inode : Inode)

def extReadAllTimes : Option Times := do
  let extraISize := (readU16 inode inodeExtraISize).toNat
  if 24 ≤ extraISize then
    let create ← extReadTime (readU32 inode inodeCrTime) (readU32 inode inodeCrTimeExtra)
    let access ← extReadTime (readU32 inode inodeATime) (readU32 inode inodeATimeExtra)
    let modify ← extReadTime (readU32 inode inodeMTime) (readU32 inode inodeMTimeExtra)
    some { create, access, modify }
  else
    -- The number of extra fields after the checksum.
    let ecx := if extraISize < 4 then 0 else (extraISize - 4) / 4
    let (time0, extra0) :=
      if 4 ≤ ecx then (readU32 inode inodeCrTime, 0)
      else (readU32 inode inodeCTime, if 1 ≤ ecx then readU32 inode inodeCTimeExtra else 0)
    let create ← extReadTime time0 extra0
    let extra1 := if 3 ≤ ecx then readU32 inode inodeATimeExtra else 0
    let access ← extReadTime (readU32 inode inodeATime) extra1
    let extra2 := if 2 ≤ ecx then readU32 inode inodeMTimeExtra else 0
    let modify ← extReadTime (readU32 inode inodeMTime) extra2
    some { create, access, modify }

/-! ## Writing -/

/-- The calls into the file system. A failure is the carry with the code in `eax`. -/
structure Hooks where
  /-- The number of the inode and its bytes in the buffer. -/
  findInode : Except (BitVec 32) (BitVec 32 × Inode)
  calcTime : (Nat → BitVec 8) → BitVec 32
  writeInode : BitVec 32 → Inode → Except (BitVec 32) Unit

def ext4ImmutableFl : BitVec 32 := 0x10
def errorAccessDenied : BitVec 32 := 10

def block (bdfe : Nat → BitVec 8) (off : Nat) : Nat → BitVec 8 := fun i => bdfe (off + i)

def bdfeAtimeOff : Nat := 16
def bdfeMtimeOff : Nat := 24

/-- The inode that was written, or the code of the failure. -/
def extSetFileInfo (hooks : Hooks) (bdfe : Nat → BitVec 8) : Except (BitVec 32) Inode := do
  let (inodeNum, inode) ← hooks.findInode
  if readU32 inode inodeFeatureFlags &&& ext4ImmutableFl ≠ 0 then
    throw errorAccessDenied
  else
    let atimeKos := hooks.calcTime (block bdfe bdfeAtimeOff)
    let inode := writeU32 inode inodeATime (atimeKos + unixtimeToKosOffset)
    let mtimeKos := hooks.calcTime (block bdfe bdfeMtimeOff)
    let inode := writeU32 inode inodeMTime (mtimeKos + unixtimeToKosOffset)
    hooks.writeInode inodeNum inode
    return inode

/-! ## The wraps of a time -/

theorem clamp_eq {edx : BitVec 32} (eax : BitVec 32) {d : Int} (hd : edx.toInt = d) (hlo : -1 ≤ d) :
    ((if edx.toInt < 0 then 0 else if edx ≠ 0 then 0xFFFFFFFF else eax : BitVec 32).toNat : Int) =
      max 0 (min (2 ^ 32 - 1) (d * 2 ^ 32 + eax.toNat)) := by
  have hzero : edx ≠ 0 ↔ d ≠ 0 := by
    have hzero : (0 : BitVec 32).toInt = 0 := by decide
    rw [← hd, ne_eq, ne_eq, ← toInt_inj, hzero]
  simp only [hzero, hd]
  have hmax : (0xFFFFFFFF : BitVec 32).toNat = 4294967295 := by decide
  have hmin : (0 : BitVec 32).toNat = 0 := by decide
  split_ifs with hneg hhigh
  · rw [hmin]
    omega
  · rw [hmax]
    omega
  · omega

theorem toInt_sub_small {e : BitVec 32} (he : e.toNat < 4) (k : Bool) :
    (e - if k then 1 else 0).toInt = e.toNat - if k then 1 else 0 := by
  have hall : ∀ n < 4, ∀ k : Bool, (BitVec.ofNat 32 n - if k then 1 else 0).toInt = n - if k then 1 else 0 := by
    decide +kernel
  have h := hall e.toNat he k
  rwa [ofNat_toNat, setWidth_eq] at h

theorem extUnixToSecs_spec :
    ((extUnixToSecs iTime extra).toNat : Int) =
      max 0 (min (2 ^ 32 - 1) (iTime.toInt + (extra &&& 3).toNat * 2 ^ 32 - 978307200)) := by
  have hextra : (extra &&& 3).toNat < 4 := by
    rw [toNat_and]
    exact Nat.lt_of_le_of_lt Nat.and_le_right (by decide)
  unfold extUnixToSecs
  generalize extra &&& 3 = e at hextra ⊢
  have hoffset : unixtimeToKosOffset.toNat = 978307200 := rfl
  have hborrow : iTime < unixtimeToKosOffset ↔ iTime.toNat < 978307200 := by rw [lt_def, hoffset]
  have hint : iTime.toInt = if iTime.toNat < 2 ^ 31 then (iTime.toNat : Int) else iTime.toNat - 2 ^ 32 := by
    rw [toInt_eq_toNat_cond]
    split_ifs <;> omega
  have heax : (iTime - unixtimeToKosOffset).toNat =
      if iTime.toNat < 978307200 then iTime.toNat + 2 ^ 32 - 978307200 else iTime.toNat - 978307200 := by
    rw [toNat_sub, hoffset]
    split_ifs <;> omega
  -- At most one of the two takes a wrap off.
  have hedx : ((if iTime.toInt < 0 then e - 1 else e) - if iTime < unixtimeToKosOffset then 1 else 0) =
      e - if (decide (¬ (978307200 ≤ iTime.toNat ∧ iTime.toNat < 2 ^ 31))) then 1 else 0 := by
    rw [hint]
    simp only [hborrow, decide_eq_true_eq]
    split_ifs <;> first | omega | simp
  have hlo : -1 ≤ (e.toNat : Int) - if (decide (¬ (978307200 ≤ iTime.toNat ∧ iTime.toNat < 2 ^ 31))) then 1 else 0 := by
    split_ifs <;> omega
  have hclamp := clamp_eq (iTime - unixtimeToKosOffset)
    (toInt_sub_small hextra (decide (¬ (978307200 ≤ iTime.toNat ∧ iTime.toNat < 2 ^ 31)))) hlo
  rw [← hedx] at hclamp
  refine hclamp.trans ?_
  rw [heax, hint]
  simp only [decide_eq_true_eq]
  by_cases hneg : 2 ^ 31 ≤ iTime.toNat
  · rw [if_pos (by omega), if_neg (by omega), if_neg (by omega)]
    exact congrArg (fun z : Int => max 0 (min (2 ^ 32 - 1) z)) (by omega)
  by_cases hb : iTime.toNat < 978307200
  · rw [if_pos (by omega), if_pos (by omega), if_pos (by omega)]
    exact congrArg (fun z : Int => max 0 (min (2 ^ 32 - 1) z)) (by omega)
  · rw [if_neg (by omega), if_neg (by omega), if_pos (by omega)]
    exact congrArg (fun z : Int => max 0 (min (2 ^ 32 - 1) z)) (by omega)

/-- So many wraps stand for this time. -/
def Fits (wraps secs : BitVec 32) : Prop :=
  if secs.toNat < 2 ^ 31 - 978307200 then wraps.toNat = 0
  else wraps.toNat = 1 ∨ secs = 0xFFFFFFFF ∧ 2 ≤ wraps.toNat

theorem extUnixToSecs_add_iff (secs extra : BitVec 32) :
    extUnixToSecs (secs + unixtimeToKosOffset) extra = secs ↔ Fits (extra &&& 3) secs := by
  have hspec := extUnixToSecs_spec (secs + unixtimeToKosOffset) extra
  have htop : (0xFFFFFFFF : BitVec 32).toNat = 4294967295 := by decide
  have hmax : secs = 0xFFFFFFFF ↔ secs.toNat = 4294967295 := by rw [← toNat_inj, htop]
  have hint : (secs + unixtimeToKosOffset).toInt =
      if secs.toNat < 2 ^ 31 - 978307200 then (secs.toNat : Int) + 978307200 else secs.toNat + 978307200 - 2 ^ 32 := by
    have hoffset : unixtimeToKosOffset.toNat = 978307200 := rfl
    rw [toInt_eq_toNat_cond, toNat_add, hoffset]
    split_ifs <;> omega
  rw [← toNat_inj, Fits, hmax]
  split_ifs at hspec ⊢ <;> omega

/-! ## Writing the current time (`ext_write_time.rs`) -/

/-- What is written to the time and to the extra field, which may be missing. -/
def extWriteTimePackPtr (kosSecs : BitVec 32) (extra : Option (BitVec 32)) : BitVec 32 × Option (BitVec 32) :=
  let eax := kosSecs + unixtimeToKosOffset
  let edx : BitVec 32 := if BitVec.uaddOverflow kosSecs unixtimeToKosOffset then 1 else 0
  let edx := if eax.toInt < 0 then edx + 1 else edx
  (eax, extra.map fun _ => edx &&& 3)

theorem pack_fits (kosSecs old : BitVec 32) :
    ∃ extra, extWriteTimePackPtr kosSecs (some old) = (kosSecs + unixtimeToKosOffset, some extra) ∧
      Fits (extra &&& 3) kosSecs := by
  have hoffset : unixtimeToKosOffset.toNat = 978307200 := rfl
  have hcarry : BitVec.uaddOverflow kosSecs unixtimeToKosOffset = true ↔ 2 ^ 32 - 978307200 ≤ kosSecs.toNat := by
    rw [BitVec.uaddOverflow, hoffset, decide_eq_true_eq]
    omega
  have hneg : (kosSecs + unixtimeToKosOffset).toInt < 0 ↔
      2 ^ 31 - 978307200 ≤ kosSecs.toNat ∧ kosSecs.toNat < 2 ^ 32 - 978307200 := by
    rw [toInt_eq_toNat_cond, toNat_add, hoffset]
    split_ifs <;> omega
  refine ⟨_, rfl, ?_⟩
  simp only [hcarry, hneg]
  unfold Fits
  split_ifs <;> first | omega | decide | exact .inl (by decide)

/-- **A time is read as it was written**, and the reader is a sum of 64 bits between two bounds. -/
theorem extWriteTimePackPtr_read :
    (∀ kosSecs old : BitVec 32, ∃ iTime extra, extWriteTimePackPtr kosSecs (some old) = (iTime, some extra) ∧
      extUnixToSecs iTime extra = kosSecs) ∧
    ∀ iTime extra : BitVec 32, ((extUnixToSecs iTime extra).toNat : Int) =
      max 0 (min (2 ^ 32 - 1) (iTime.toInt + (extra &&& 3).toNat * 2 ^ 32 - 978307200)) := by
  refine ⟨fun kosSecs old => ?_, extUnixToSecs_spec⟩
  obtain ⟨extra, hpack, hfits⟩ := pack_fits kosSecs old
  exact ⟨_, extra, hpack, (extUnixToSecs_add_iff kosSecs extra).mpr hfits⟩

/-! ## What is read after the times were set -/

def accessExtra : BitVec 32 :=
  if 16 ≤ (readU16 inode inodeExtraISize).toNat then readU32 inode inodeATimeExtra else 0

def modifyExtra : BitVec 32 :=
  if 12 ≤ (readU16 inode inodeExtraISize).toNat then readU32 inode inodeMTimeExtra else 0

theorem exists_extReadTime : ∃ t, extReadTime iTime extra = some t := by
  obtain ⟨t, ht, -⟩ := fsCalculateTime_fsTime2bdfe (extUnixToSecs iTime extra)
  exact ⟨t, ht⟩

theorem extReadAllTimes_spec :
    ∃ t, extReadAllTimes inode = some t ∧ extReadTime (readU32 inode inodeATime) (accessExtra inode) = some t.access ∧
      extReadTime (readU32 inode inodeMTime) (modifyExtra inode) = some t.modify := by
  obtain ⟨access, haccess⟩ := exists_extReadTime (readU32 inode inodeATime) (accessExtra inode)
  obtain ⟨modify, hmodify⟩ := exists_extReadTime (readU32 inode inodeMTime) (modifyExtra inode)
  unfold extReadAllTimes
  by_cases hall : 24 ≤ (readU16 inode inodeExtraISize).toNat
  · obtain ⟨create, hcreate⟩ := exists_extReadTime (readU32 inode inodeCrTime) (readU32 inode inodeCrTimeExtra)
    have haextra : accessExtra inode = readU32 inode inodeATimeExtra := if_pos (by omega)
    have hmextra : modifyExtra inode = readU32 inode inodeMTimeExtra := if_pos (by omega)
    refine ⟨{ create, access, modify }, ?_, haccess, hmodify⟩
    rw [haextra] at haccess
    rw [hmextra] at hmodify
    simp only [hall, if_true, hcreate, haccess, hmodify, Option.bind_eq_bind, Option.bind_some]
  -- The count of the fields says the same as the size.
  have hthree : 3 ≤ (if (readU16 inode inodeExtraISize).toNat < 4 then 0
      else ((readU16 inode inodeExtraISize).toNat - 4) / 4) ↔ 16 ≤ (readU16 inode inodeExtraISize).toNat := by
    split_ifs <;> omega
  have htwo : 2 ≤ (if (readU16 inode inodeExtraISize).toNat < 4 then 0
      else ((readU16 inode inodeExtraISize).toNat - 4) / 4) ↔ 12 ≤ (readU16 inode inodeExtraISize).toNat := by
    split_ifs <;> omega
  unfold accessExtra at haccess ⊢
  unfold modifyExtra at hmodify ⊢
  simp only [hall, if_false, hthree, htwo]
  generalize (if 4 ≤ _ then _ else _ : BitVec 32 × BitVec 32) = first
  obtain ⟨create, hcreate⟩ := exists_extReadTime first.1 first.2
  refine ⟨{ create, access, modify }, ?_, haccess, hmodify⟩
  simp only [hcreate, haccess, hmodify, Option.bind_eq_bind, Option.bind_some]

variable (access modify : BitVec 32)

def Reports : Prop :=
  ∃ t, extReadAllTimes inode = some t ∧ fsTime2bdfe access = some t.access ∧ fsTime2bdfe modify = some t.modify

theorem reports_iff :
    Reports inode access modify ↔ extUnixToSecs (readU32 inode inodeATime) (accessExtra inode) = access ∧
      extUnixToSecs (readU32 inode inodeMTime) (modifyExtra inode) = modify := by
  obtain ⟨t, ht, haccess, hmodify⟩ := extReadAllTimes_spec inode
  unfold Reports
  rw [ht]
  constructor
  · rintro ⟨t', heq, ha, hm⟩
    cases heq
    exact ⟨fsTime2bdfe_injective (haccess.trans ha.symm), fsTime2bdfe_injective (hmodify.trans hm.symm)⟩
  · rintro ⟨rfl, rfl⟩
    exact ⟨t, rfl, haccess, hmodify⟩

def setTimes : Inode :=
  writeU32 (writeU32 inode inodeATime (access + unixtimeToKosOffset)) inodeMTime (modify + unixtimeToKosOffset)

theorem extSetFileInfo_ok {hooks : Hooks} {bdfe : Nat → BitVec 8} {num : BitVec 32} {inode inode' : Inode}
    (hfind : hooks.findInode = .ok (num, inode)) (h : extSetFileInfo hooks bdfe = .ok inode') :
    inode' = setTimes inode (hooks.calcTime (block bdfe bdfeAtimeOff)) (hooks.calcTime (block bdfe bdfeMtimeOff)) := by
  unfold extSetFileInfo at h
  simp only [hfind, bind, Except.bind] at h
  split at h
  · cases h
  · split at h
    · cases h
    · cases h
      rfl

theorem reports_setTimes_iff :
    Reports (setTimes inode access modify) access modify ↔
      Fits (accessExtra inode &&& 3) access ∧ Fits (modifyExtra inode &&& 3) modify := by
  have hatime : readU32 (setTimes inode access modify) inodeATime = access + unixtimeToKosOffset := by
    unfold setTimes
    rw [readU32_writeU32_of_disjoint _ _ (by decide), readU32_writeU32_self]
  have hmtime : readU32 (setTimes inode access modify) inodeMTime = modify + unixtimeToKosOffset :=
    readU32_writeU32_self ..
  have hfield {off : Nat} (hoff : 20 ≤ off) : readU32 (setTimes inode access modify) off = readU32 inode off := by
    unfold setTimes inodeATime inodeMTime
    rw [readU32_writeU32_of_disjoint _ _ (by omega), readU32_writeU32_of_disjoint _ _ (by omega)]
  have hsize : readU16 (setTimes inode access modify) inodeExtraISize = readU16 inode inodeExtraISize := by
    unfold setTimes
    rw [readU16_writeU32_of_disjoint _ _ (by decide), readU16_writeU32_of_disjoint _ _ (by decide)]
  have haccess : accessExtra (setTimes inode access modify) = accessExtra inode := by
    unfold accessExtra
    rw [hsize, hfield (by decide)]
  have hmodify : modifyExtra (setTimes inode access modify) = modifyExtra inode := by
    unfold modifyExtra
    rw [hsize, hfield (by decide)]
  rw [reports_iff, hatime, hmtime, haccess, hmodify, extUnixToSecs_add_iff, extUnixToSecs_add_iff]

/-- The times are read back exactly if the extra fields already count the right wraps. -/
theorem extSetFileInfo_reports_iff {hooks : Hooks} {bdfe : Nat → BitVec 8} {num : BitVec 32} {inode inode' : Inode}
    (hfind : hooks.findInode = .ok (num, inode)) (hset : extSetFileInfo hooks bdfe = .ok inode') :
    Reports inode' (hooks.calcTime (block bdfe bdfeAtimeOff)) (hooks.calcTime (block bdfe bdfeMtimeOff)) ↔
      Fits (accessExtra inode &&& 3) (hooks.calcTime (block bdfe bdfeAtimeOff)) ∧
        Fits (modifyExtra inode &&& 3) (hooks.calcTime (block bdfe bdfeMtimeOff)) := by
  rw [extSetFileInfo_ok hfind hset]
  exact reports_setTimes_iff inode _ _

theorem extSetFileInfo_reports_first : Reports (setTimes (fun _ => 0) 0 0) 0 0 :=
  (@extSetFileInfo_reports_iff ⟨.ok (2, fun _ => 0), fun _ => 0, fun _ _ => .ok ()⟩ (fun _ => 0) 2 (fun _ => 0) _
    rfl rfl).mpr ⟨by unfold Fits; decide +kernel, by unfold Fits; decide +kernel⟩

/-- The second in which the 32 bits wrap, in January 2038, is set and read as the start of 2001. -/
theorem extSetFileInfo_loses_wrap :
    ¬ ∀ (hooks : Hooks) (bdfe : Nat → BitVec 8) (inode' : Inode), extSetFileInfo hooks bdfe = .ok inode' →
      Reports inode' (hooks.calcTime (block bdfe bdfeAtimeOff)) (hooks.calcTime (block bdfe bdfeMtimeOff)) := by
  intro h
  have hreports := h ⟨.ok (2, fun _ => 0), fun _ => 1169176448, fun _ _ => .ok ()⟩ (fun _ => 0)
    (setTimes (fun _ => 0) 1169176448 1169176448) rfl
  obtain ⟨hfits, -⟩ := (reports_setTimes_iff (fun _ => 0) 1169176448 1169176448).mp hreports
  revert hfits
  unfold Fits
  decide +kernel

end Kolibri.ExtTimes
