import Kolibri.DiskCache.Code

/-! # The memory of the disk caches (`disk_init_cache`)

A cache has its items at the start of its part and the sectors at the end.
-/

namespace Kolibri.DiskCache.Layout

open Nat

def sizeofCacheItem : BitVec 32 := 12

structure Record where
  pointer : BitVec 32
  dataSize : BitVec 32
  data : BitVec 32
  sadSize : BitVec 32
  sectorSizeLog : Nat

structure Area (size : BitVec 32) where
  start : BitVec 32
  start_ne : start ≠ 0
  fits : start.toNat + size.toNat ≤ 2 ^ 32

inductive Init
  | invalidSectorSize
  | noMemory
  | noCache
  | caches (record : Which → Record)

/-! ## `disk_init_cache` -/

def bsf (x : BitVec 32) : Option Nat := (List.range 32).find? fun i => x.getLsbD i

variable (sectorSize : BitVec 32)

/-- Step 1: `sector_size_log` of an accepted sector size. -/
def acceptSectorSize : Option Nat := do
  let ecx ← bsf sectorSize
  if (1 : BitVec 32) <<< ecx ≠ sectorSize then none
  else if ecx < 6 then none
  else if ecx ≤ 14 then some ecx
  else none

def suggestedSize (pagesFree : BitVec 32) : BitVec 32 :=
  let eax := pagesFree <<< (12 - 5)
  let eax := eax &&& -(8 * 4096)
  let eax := if eax < 1024 * 1024 then eax else 1024 * 1024
  if eax > 128 * 1024 then eax else 128 * 1024

/-- `eax` and `ecx`: where the sectors start in the part, and the number of slots. -/
def calculateCacheSlots (sectorSize eax : BitVec 32) : BitVec 32 × BitVec 32 :=
  let ecx := eax / (sectorSize + sizeofCacheItem)
  (eax - ecx * sectorSize, ecx - 1)

def fillRecord (sectorSizeLog : Nat) (pointer dataSize : BitVec 32) : Record :=
  let (eax, ecx) := calculateCacheSlots sectorSize dataSize
  { pointer, dataSize, data := eax + pointer, sadSize := ecx, sectorSizeLog }

def fillRecords (sectorSizeLog : Nat) (start cacheSize : BitVec 32) :
    Which → Record
  | .sys => fillRecord sectorSize sectorSizeLog start (cacheSize >>> 3)
  | .app => fillRecord sectorSize sectorSizeLog (start + (cacheSize >>> 3)) ((cacheSize >>> 3) * 7)

def diskInitCache (sectorSize pagesFree : BitVec 32) (adjustCacheSize : BitVec 32 → BitVec 32)
    (kernelAlloc : (size : BitVec 32) → Option (Area size)) : Init :=
  match acceptSectorSize sectorSize with
  | none => .invalidSectorSize
  | some sectorSizeLog =>
    let cacheSize := adjustCacheSize (suggestedSize pagesFree)
    if cacheSize = 0 then .noCache
    else
      match kernelAlloc cacheSize with
      | none => .noMemory
      | some area => .caches (fillRecords sectorSize sectorSizeLog area.start cacheSize)

/-! ## The slots that are looked at -/

/-- A slot and `esi`, which points to its item. -/
structure Probe where
  slot : BitVec 32
  esi : BitVec 32

variable (c : Record)

def firstProbe : Probe := ⟨1, c.pointer + sizeofCacheItem⟩

/-- `.nohdcache` -/
def nextProbe (p : Probe) : Probe := ⟨p.slot + 1, p.esi + sizeofCacheItem⟩

/-- `.search_again`: the registers in front of the loop. -/
def searchFrom (searchStart : BitVec 32) : Probe :=
  ⟨searchStart, ((searchStart * 3) <<< 2) + c.pointer⟩

/-- `.search_for_empty` -/
def nextSearch (p : Probe) : Probe :=
  if p.slot + 1 ≤ c.sadSize then nextProbe p else firstProbe c

/-- What both lookups look at. `search_start` is 0 at first and then a slot that was found. -/
inductive Probed (c : Record) : Probe → Prop
  | first : Probed c (firstProbe c)
  | next {p : Probe} : Probed c p → p.slot + 1 ≤ c.sadSize → Probed c (nextProbe p)
  | search : Probed c (nextSearch c (searchFrom c 0))
  | searchAgain {p : Probe} : Probed c p → Probed c (nextSearch c (searchFrom c p.slot))
  | searchNext {p : Probe} : Probed c p → Probed c (nextSearch c p)

def itemAddr (slot : BitVec 32) : BitVec 32 := c.pointer + sizeofCacheItem * slot

def dataAddr (slot : BitVec 32) : BitVec 32 := (slot <<< c.sectorSizeLog) + c.data

/-! ## A good layout -/

inductive Piece
  | item (i : Which) (slot : BitVec 32)
  | data (i : Which) (slot : BitVec 32)

def Piece.cache : Piece → Which
  | item i _ => i
  | data i _ => i

def Piece.slot : Piece → BitVec 32
  | item _ slot => slot
  | data _ slot => slot

def Slot (slot : BitVec 32) : Prop := 1 ≤ slot.toNat ∧ slot.toNat ≤ c.sadSize.toNat

def span (a n : BitVec 32) : Set Nat := Set.Ico a.toNat (a.toNat + n.toNat)

def Piece.bytes (record : Which → Record) : Piece → Set Nat
  | item i slot => span (itemAddr (record i) slot) sizeofCacheItem
  | data i slot => span (dataAddr (record i) slot) sectorSize

def part : Set Nat := span c.pointer c.dataSize

def pieces (record : Which → Record) : Set Piece := {x | Slot (record x.cache) x.slot}

structure WellLaid (sectorSize cacheSize start : BitVec 32) (record : Which → Record) : Prop where
  sadSize : ∀ i, 1 ≤ (record i).sadSize.toNat ∧ (record i).sadSize.toNat < 2 ^ 31
  probed : ∀ i p, Probed (record i) p → Slot (record i) p.slot ∧ p.esi = itemAddr (record i) p.slot
  parts : ∀ i, part (record i) ⊆ span start cacheSize
  inside : ∀ x ∈ pieces record, x.bytes sectorSize record ⊆ part (record x.cache)
  disjoint : (pieces record).PairwiseDisjoint (Piece.bytes sectorSize record)

/-! ## Arithmetic of the fields -/

variable {l : Nat} {sectorSize cacheSize start : BitVec 32} {record : Which → Record} {x : Piece}

theorem acceptSectorSize_eq_some (h : acceptSectorSize sectorSize = some l) :
    6 ≤ l ∧ l ≤ 14 ∧ sectorSize.toNat = 2 ^ l := by
  rw [acceptSectorSize, Option.bind_eq_bind, Option.bind_eq_some_iff] at h
  obtain ⟨ecx, -, h⟩ := h
  split_ifs at h with hshift hlow hhigh
  obtain rfl : ecx = l := Option.some.inj h
  rw [not_not] at hshift
  refine ⟨by omega, hhigh, ?_⟩
  rw [← hshift]
  interval_cases ecx <;> rfl

section Slots

variable {sectorSize : BitVec 32} {l : Nat}

def fitting (l : Nat) (dataSize : BitVec 32) : Nat := dataSize.toNat / (2 ^ l + 12)

theorem fitting_le (l : Nat) (dataSize : BitVec 32) :
    12 * fitting l dataSize + fitting l dataSize * 2 ^ l ≤ dataSize.toNat := by
  calc 12 * fitting l dataSize + fitting l dataSize * 2 ^ l
      = fitting l dataSize * (2 ^ l + 12) := by ring
    _ ≤ dataSize.toNat := div_mul_le_self _ _

theorem two_le_fitting_iff (l : Nat) (dataSize : BitVec 32) :
    2 ≤ fitting l dataSize ↔ 2 * (2 ^ l + 12) ≤ dataSize.toNat :=
  le_div_iff_mul_le (succ_pos _)

variable (hl : l ≤ 14) (hsize : sectorSize.toNat = 2 ^ l)

include hl hsize

theorem slots_toNat (dataSize : BitVec 32) :
    (dataSize / (sectorSize + sizeofCacheItem)).toNat = fitting l dataSize := by
  have hpow : 2 ^ l ≤ 2 ^ 14 := Nat.pow_le_pow_right (by decide) hl
  rw [BitVec.toNat_udiv, BitVec.toNat_add, hsize, Nat.mod_eq_of_lt]
  · rfl
  · change 2 ^ l + 12 < 2 ^ 32
    omega

theorem fillRecord_sadSize (pointer dataSize : BitVec 32) :
    (fillRecord sectorSize l pointer dataSize).sadSize.toNat =
      if fitting l dataSize = 0 then 2 ^ 32 - 1 else fitting l dataSize - 1 := by
  have hslots := slots_toNat hl hsize dataSize
  change (dataSize / (sectorSize + sizeofCacheItem) - 1).toNat = _
  rw [BitVec.toNat_sub, hslots]
  change (2 ^ 32 - 1 + fitting l dataSize) % 2 ^ 32 = _
  split_ifs with h <;> omega

end Slots

structure Laid (c : Record) (l k : Nat) : Prop where
  slots : c.sadSize.toNat + 1 = k
  pos : 2 ≤ k
  room : 12 * k + k * 2 ^ l ≤ c.dataSize.toNat
  data : c.data.toNat = c.pointer.toNat + (c.dataSize.toNat - k * 2 ^ l)
  log : c.sectorSizeLog = l
  fits : c.pointer.toNat + c.dataSize.toNat ≤ 2 ^ 32

theorem laid_fillRecord {pointer dataSize : BitVec 32} (hl : l ≤ 14) (hsize : sectorSize.toNat = 2 ^ l)
    (hfits : pointer.toNat + dataSize.toNat ≤ 2 ^ 32) (hpos : 2 ≤ fitting l dataSize) :
    Laid (fillRecord sectorSize l pointer dataSize) l (fitting l dataSize) := by
  have hslots := slots_toNat hl hsize dataSize
  have hroom := fitting_le l dataSize
  have hmul : (dataSize / (sectorSize + sizeofCacheItem) * sectorSize).toNat = fitting l dataSize * 2 ^ l := by
    rw [BitVec.toNat_mul, hslots, hsize, Nat.mod_eq_of_lt]
    omega
  have hused : 0 < fitting l dataSize * 2 ^ l := Nat.mul_pos (by omega) (Nat.two_pow_pos l)
  refine ⟨?_, hpos, hroom, ?_, rfl, hfits⟩
  · rw [fillRecord_sadSize hl hsize]
    split_ifs with h <;> omega
  change (dataSize - dataSize / (sectorSize + sizeofCacheItem) * sectorSize + pointer).toNat =
    pointer.toNat + (dataSize.toNat - fitting l dataSize * 2 ^ l)
  rw [BitVec.toNat_add, BitVec.toNat_sub_of_le (by rw [BitVec.le_def, hmul]; omega), hmul,
    Nat.mod_eq_of_lt (by omega)]
  exact Nat.add_comm _ _

namespace Laid

variable {c : Record} {l k : Nat} {slot : BitVec 32}

theorem itemAddr_toNat (h : Laid c l k) (hslot : Slot c slot) :
    (itemAddr c slot).toNat = c.pointer.toNat + 12 * slot.toNat := by
  have := h.slots
  have := h.room
  have := h.fits
  have := hslot.2
  rw [itemAddr, BitVec.toNat_add, BitVec.toNat_mul]
  change (c.pointer.toNat + 12 * slot.toNat % 2 ^ 32) % 2 ^ 32 = _
  omega

theorem dataAddr_toNat (h : Laid c l k) (hslot : Slot c slot) :
    (dataAddr c slot).toNat + k * 2 ^ l = c.pointer.toNat + c.dataSize.toNat + slot.toNat * 2 ^ l := by
  have := h.slots
  have := h.room
  have := h.fits
  have := h.data
  have hmul : slot.toNat * 2 ^ l + 2 ^ l ≤ k * 2 ^ l := by
    rw [← Nat.succ_mul]
    exact Nat.mul_le_mul_right _ (by have := hslot.2; omega)
  have hpow := Nat.two_pow_pos l
  rw [dataAddr, h.log, BitVec.toNat_add, BitVec.toNat_shiftLeft, Nat.shiftLeft_eq]
  omega

end Laid

/-! ## The searches stay on the slots -/

section Searches

variable {c : Record} {p : Probe}

theorem nextProbe_esi (h : p.esi = itemAddr c p.slot) : (nextProbe p).esi = itemAddr c (nextProbe p).slot := by
  change p.esi + sizeofCacheItem = itemAddr c (p.slot + 1)
  rw [h, itemAddr, itemAddr]
  ring

theorem searchFrom_esi (c : Record) (s : BitVec 32) : (searchFrom c s).esi = itemAddr c (searchFrom c s).slot := by
  change ((s * 3) <<< 2) + c.pointer = c.pointer + sizeofCacheItem * s
  rw [BitVec.shiftLeft_eq_mul_twoPow]
  change s * 3 * 4 + c.pointer = c.pointer + 12 * s
  ring

variable (hpos : 1 ≤ c.sadSize.toNat) (hlt : c.sadSize.toNat < 2 ^ 31)

include hpos

theorem firstProbe_slot : Slot c (firstProbe c).slot ∧ (firstProbe c).esi = itemAddr c (firstProbe c).slot :=
  ⟨⟨le_refl 1, hpos⟩, rfl⟩

include hlt

-- The search may come from slot 0, which is in front of the first one.
theorem nextProbe_slot (hp : p.slot.toNat ≤ c.sadSize.toNat) (hesi : p.esi = itemAddr c p.slot)
    (hle : p.slot + 1 ≤ c.sadSize) :
    Slot c (nextProbe p).slot ∧ (nextProbe p).esi = itemAddr c (nextProbe p).slot := by
  refine ⟨⟨?_, hle⟩, nextProbe_esi hesi⟩
  change 1 ≤ (p.slot + 1).toNat
  rw [BitVec.toNat_add]
  change 1 ≤ (p.slot.toNat + 1) % 2 ^ 32
  omega

theorem nextSearch_slot (hp : p.slot.toNat ≤ c.sadSize.toNat) (hesi : p.esi = itemAddr c p.slot) :
    Slot c (nextSearch c p).slot ∧ (nextSearch c p).esi = itemAddr c (nextSearch c p).slot := by
  unfold nextSearch
  split_ifs with hle
  · exact nextProbe_slot hpos hlt hp hesi hle
  · exact firstProbe_slot hpos

theorem probed_slot (h : Probed c p) : Slot c p.slot ∧ p.esi = itemAddr c p.slot := by
  induction h with
  | first => exact firstProbe_slot hpos
  | next _ hle ih => exact nextProbe_slot hpos hlt ih.1.2 ih.2 hle
  | search => exact nextSearch_slot hpos hlt (zero_le _) (searchFrom_esi c 0)
  | searchAgain _ ih => exact nextSearch_slot hpos hlt ih.1.2 (searchFrom_esi c _)
  | searchNext _ ih => exact nextSearch_slot hpos hlt ih.1.2 ih.2

end Searches

/-! ## The pieces of one cache -/

theorem disjoint_blocks (a n : Nat) {i j : Nat} (h : i ≠ j) :
    Disjoint (Set.Ico (a + i * n) (a + (i + 1) * n)) (Set.Ico (a + j * n) (a + (j + 1) * n)) := by
  have hmono : Monotone fun i => a + i * n := fun i j hij =>
    Nat.add_le_add_left (Nat.mul_le_mul_right n hij) a
  exact hmono.pairwise_disjoint_on_Ico_succ h

namespace Laid

variable {c : Record} {l k : Nat} {slot slot' : BitVec 32} {sectorSize : BitVec 32}

variable (h : Laid c l k)
include h

theorem item_bytes (hslot : Slot c slot) :
    span (itemAddr c slot) sizeofCacheItem =
      Set.Ico (c.pointer.toNat + slot.toNat * 12) (c.pointer.toNat + (slot.toNat + 1) * 12) := by
  rw [span, h.itemAddr_toNat hslot]
  change Set.Ico _ (c.pointer.toNat + 12 * slot.toNat + 12) = _
  congr 1 <;> omega

theorem data_bytes (hsize : sectorSize.toNat = 2 ^ l) (hslot : Slot c slot) :
    span (dataAddr c slot) sectorSize =
      Set.Ico (c.data.toNat + slot.toNat * 2 ^ l) (c.data.toNat + (slot.toNat + 1) * 2 ^ l) := by
  have haddr : (dataAddr c slot).toNat = c.data.toNat + slot.toNat * 2 ^ l := by
    have := h.dataAddr_toNat hslot
    have := h.data
    have := h.room
    omega
  rw [span, haddr, hsize, add_one_mul, add_assoc]

theorem item_subset (hslot : Slot c slot) :
    span (itemAddr c slot) sizeofCacheItem ⊆ Set.Ico c.pointer.toNat c.data.toNat := by
  rw [h.item_bytes hslot]
  have := h.slots
  have := h.data
  have := h.room
  have := hslot.2
  exact Set.Ico_subset_Ico (by omega) (by omega)

theorem data_subset (hsize : sectorSize.toNat = 2 ^ l) (hslot : Slot c slot) :
    span (dataAddr c slot) sectorSize ⊆
      Set.Ico c.data.toNat (c.pointer.toNat + c.dataSize.toNat) := by
  rw [h.data_bytes hsize hslot]
  have hmul : (slot.toNat + 1) * 2 ^ l ≤ k * 2 ^ l :=
    mul_le_mul_right _ (by have := hslot.2; have := h.slots; omega)
  have := h.data
  have := h.room
  exact Set.Ico_subset_Ico (by omega) (by omega)

theorem disjoint_items (hslot : Slot c slot) (hslot' : Slot c slot') (hne : slot ≠ slot') :
    Disjoint (span (itemAddr c slot) sizeofCacheItem) (span (itemAddr c slot') sizeofCacheItem) := by
  rw [h.item_bytes hslot, h.item_bytes hslot']
  exact disjoint_blocks _ _ fun heq => hne (BitVec.eq_of_toNat_eq heq)

theorem disjoint_data (hsize : sectorSize.toNat = 2 ^ l) (hslot : Slot c slot)
    (hslot' : Slot c slot') (hne : slot ≠ slot') :
    Disjoint (span (dataAddr c slot) sectorSize) (span (dataAddr c slot') sectorSize) := by
  rw [h.data_bytes hsize hslot, h.data_bytes hsize hslot']
  exact disjoint_blocks _ _ fun heq => hne (BitVec.eq_of_toNat_eq heq)

theorem disjoint_item_data (hsize : sectorSize.toNat = 2 ^ l) (hslot : Slot c slot)
    (hslot' : Slot c slot') :
    Disjoint (span (itemAddr c slot) sizeofCacheItem) (span (dataAddr c slot') sectorSize) :=
  Set.disjoint_of_subset (h.item_subset hslot) (h.data_subset hsize hslot') Set.Ico_disjoint_Ico_same

theorem data_le : c.data.toNat ≤ c.pointer.toNat + c.dataSize.toNat := by
  have := h.data
  omega

theorem pointer_le_data : c.pointer.toNat ≤ c.data.toNat := by
  have := h.data
  omega

end Laid

/-! ## The whole area -/

section Area

variable {sectorSize cacheSize start : BitVec 32} {l : Nat}

theorem eighth_toNat (cacheSize : BitVec 32) : (cacheSize >>> 3).toNat = cacheSize.toNat / 8 := by
  rw [BitVec.toNat_ushiftRight, shiftRight_eq_div_pow]

theorem seven_eighths_toNat (cacheSize : BitVec 32) : ((cacheSize >>> 3) * 7).toNat = cacheSize.toNat / 8 * 7 := by
  rw [BitVec.toNat_mul, eighth_toNat]
  change cacheSize.toNat / 8 * 7 % 2 ^ 32 = _
  omega

theorem fillRecords_pointer_app (hfits : start.toNat + cacheSize.toNat ≤ 2 ^ 32) (hpos : 8 ≤ cacheSize.toNat) :
    (fillRecords sectorSize l start cacheSize .app).pointer.toNat = start.toNat + cacheSize.toNat / 8 := by
  change (start + (cacheSize >>> 3)).toNat = _
  rw [BitVec.toNat_add, eighth_toNat]
  omega

theorem laid_fillRecords (hl : l ≤ 14) (hsize : sectorSize.toNat = 2 ^ l)
    (hfits : start.toNat + cacheSize.toNat ≤ 2 ^ 32) (hroom : 16 * (2 ^ l + 12) ≤ cacheSize.toNat) (i : Which) :
    ∃ k, Laid (fillRecords sectorSize l start cacheSize i) l k := by
  have happ := @fillRecords_pointer_app sectorSize cacheSize start l hfits (by omega)
  have heighth := eighth_toNat cacheSize
  have hseven := seven_eighths_toNat cacheSize
  cases i with
  | sys =>
    refine ⟨_, laid_fillRecord hl hsize (by omega) ?_⟩
    rw [two_le_fitting_iff]
    omega
  | app =>
    have hptr : (start + (cacheSize >>> 3)).toNat = start.toNat + cacheSize.toNat / 8 := happ
    refine ⟨_, laid_fillRecord hl hsize (by omega) ?_⟩
    rw [two_le_fitting_iff]
    omega

theorem part_fillRecords (hfits : start.toNat + cacheSize.toNat ≤ 2 ^ 32) (hpos : 8 ≤ cacheSize.toNat) :
    part (fillRecords sectorSize l start cacheSize .sys) = Set.Ico start.toNat (start.toNat + cacheSize.toNat / 8) ∧
      part (fillRecords sectorSize l start cacheSize .app) =
        Set.Ico (start.toNat + cacheSize.toNat / 8) (start.toNat + cacheSize.toNat / 8 * 8) := by
  have happ := @fillRecords_pointer_app sectorSize cacheSize start l hfits hpos
  constructor
  · change Set.Ico start.toNat (start.toNat + (cacheSize >>> 3).toNat) = _
    rw [eighth_toNat]
  rw [part, span, happ]
  change Set.Ico _ (start.toNat + cacheSize.toNat / 8 + ((cacheSize >>> 3) * 7).toNat) = _
  rw [seven_eighths_toNat]
  congr 1
  omega

end Area

theorem bytes_subset_part (hsize : sectorSize.toNat = 2 ^ l) (hlaid : ∀ i, ∃ k, Laid (record i) l k)
    (hx : x ∈ pieces record) : x.bytes sectorSize record ⊆ part (record x.cache) := by
  obtain ⟨k, h⟩ := hlaid x.cache
  cases x with
  | item i slot => exact (h.item_subset hx).trans (Set.Ico_subset_Ico_right h.data_le)
  | data i slot => exact (h.data_subset hsize hx).trans (Set.Ico_subset_Ico_left h.pointer_le_data)

theorem bytes_disjoint (hsize : sectorSize.toNat = 2 ^ l) (hlaid : ∀ i, ∃ k, Laid (record i) l k) {y : Piece}
    (hx : x ∈ pieces record) (hy : y ∈ pieces record) (hcache : x.cache = y.cache) (hne : x ≠ y) :
    Disjoint (x.bytes sectorSize record) (y.bytes sectorSize record) := by
  obtain ⟨k, h⟩ := hlaid x.cache
  cases x with
  | item i slot =>
    cases y with
    | item j slot' =>
      obtain rfl : i = j := hcache
      exact h.disjoint_items hx hy fun heq => hne (by rw [heq])
    | data j slot' =>
      obtain rfl : i = j := hcache
      exact h.disjoint_item_data hsize hx hy
  | data i slot =>
    cases y with
    | item j slot' =>
      obtain rfl : i = j := hcache
      exact (h.disjoint_item_data hsize hy hx).symm
    | data j slot' =>
      obtain rfl : i = j := hcache
      exact h.disjoint_data hsize hx hy fun heq => hne (by rw [heq])

theorem wellLaid_fillRecords (hl : l ≤ 14) (hsize : sectorSize.toNat = 2 ^ l)
    (hfits : start.toNat + cacheSize.toNat ≤ 2 ^ 32) (hroom : 16 * (2 ^ l + 12) ≤ cacheSize.toNat) :
    WellLaid sectorSize cacheSize start (fillRecords sectorSize l start cacheSize) := by
  have hlaid := laid_fillRecords hl hsize hfits hroom
  have hsad (i : Which) : 1 ≤ (fillRecords sectorSize l start cacheSize i).sadSize.toNat ∧
      (fillRecords sectorSize l start cacheSize i).sadSize.toNat < 2 ^ 31 := by
    obtain ⟨k, h⟩ := hlaid i
    have := h.slots
    have := h.pos
    have := h.room
    omega
  obtain ⟨hsys, happ⟩ := @part_fillRecords sectorSize cacheSize start l hfits (by omega)
  have hparts : Disjoint (part (fillRecords sectorSize l start cacheSize .sys))
      (part (fillRecords sectorSize l start cacheSize .app)) := by
    rw [hsys, happ]
    exact Set.Ico_disjoint_Ico_same
  refine ⟨hsad, fun i p hp => probed_slot (hsad i).1 (hsad i).2 hp, fun i => ?_,
    fun x hx => bytes_subset_part hsize hlaid hx, fun x hx y hy hne => ?_⟩
  · cases i with
    | sys => rw [hsys]; exact Set.Ico_subset_Ico_right (by omega)
    | app => rw [happ]; exact Set.Ico_subset_Ico (by omega) (by omega)
  by_cases hcache : x.cache = y.cache
  · exact bytes_disjoint hsize hlaid hx hy hcache hne
  have hinside := Set.disjoint_of_subset (bytes_subset_part hsize hlaid hx) (bytes_subset_part hsize hlaid hy)
  cases hxc : x.cache <;> cases hyc : y.cache <;> rw [hxc, hyc] at hinside hcache
  · exact absurd rfl hcache
  · exact hinside hparts
  · exact hinside hparts.symm
  · exact absurd rfl hcache

theorem room_of_sadSize (hl : l ≤ 14) (hsize : sectorSize.toNat = 2 ^ l)
    (hpos : 1 ≤ (fillRecords sectorSize l start cacheSize .sys).sadSize.toNat)
    (hlt : (fillRecords sectorSize l start cacheSize .sys).sadSize.toNat < 2 ^ 31) :
    16 * (2 ^ l + 12) ≤ cacheSize.toNat := by
  have hsad := fillRecord_sadSize hl hsize start (cacheSize >>> 3)
  have htwo : 2 ≤ fitting l (cacheSize >>> 3) := by
    rw [fillRecords, hsad] at hpos hlt
    split_ifs at hpos hlt <;> omega
  rw [two_le_fitting_iff, eighth_toNat] at htwo
  omega

/-- **The caches are laid out well just if an eighth of the area holds two items and two sectors.** -/
theorem diskInitCache_wellLaid_iff (sectorSize pagesFree : BitVec 32) (adjustCacheSize : BitVec 32 → BitVec 32)
    (kernelAlloc : (size : BitVec 32) → Option (Area size)) {record : Which → Record}
    (h : diskInitCache sectorSize pagesFree adjustCacheSize kernelAlloc = .caches record) :
    ∃ area, kernelAlloc (adjustCacheSize (suggestedSize pagesFree)) = some area ∧
      (WellLaid sectorSize (adjustCacheSize (suggestedSize pagesFree)) area.start record ↔
        16 * (sectorSize.toNat + 12) ≤ (adjustCacheSize (suggestedSize pagesFree)).toNat) := by
  unfold diskInitCache at h
  split at h
  · cases h
  rename_i l haccept
  obtain ⟨-, hl, hsize⟩ := acceptSectorSize_eq_some haccept
  simp only at h
  split_ifs at h
  split at h
  · cases h
  rename_i area halloc
  cases h
  refine ⟨area, halloc, ?_⟩
  rw [hsize]
  constructor
  · intro hlaid
    exact room_of_sadSize hl hsize (hlaid.sadSize .sys).1 (hlaid.sadSize .sys).2
  · exact wellLaid_fillRecords hl hsize area.fits

def oneArea (size : BitVec 32) : Option (Area size) :=
  if h : 0x80000000 + size.toNat ≤ 2 ^ 32 then some ⟨0x80000000, by decide, h⟩ else none

theorem diskInitCache_wellLaid_512 : ∃ record area, diskInitCache 512 0 id oneArea = .caches record ∧
    oneArea (suggestedSize 0) = some area ∧ WellLaid 512 (suggestedSize 0) area.start record := by
  have hinit : diskInitCache 512 0 id oneArea = .caches (fillRecords 512 9 0x80000000 (128 * 1024)) := rfl
  obtain ⟨area, halloc, h⟩ := diskInitCache_wellLaid_iff 512 0 id oneArea hinit
  exact ⟨_, area, hinit, halloc, h.2 (by decide)⟩

/-- Sectors of 16384 bytes are accepted, but the system part has no slot for them. -/
theorem diskInitCache_no_slot : ¬ ∀ (sectorSize pagesFree : BitVec 32) (adjustCacheSize : BitVec 32 → BitVec 32)
    (kernelAlloc : (size : BitVec 32) → Option (Area size)) (record : Which → Record),
    diskInitCache sectorSize pagesFree adjustCacheSize kernelAlloc = .caches record →
    ∃ area, kernelAlloc (adjustCacheSize (suggestedSize pagesFree)) = some area ∧
      WellLaid sectorSize (adjustCacheSize (suggestedSize pagesFree)) area.start record := by
  intro h
  have hinit : diskInitCache 16384 0 id oneArea = .caches (fillRecords 16384 14 0x80000000 (128 * 1024)) := rfl
  obtain ⟨area, -, hlaid⟩ := h 16384 0 id oneArea _ hinit
  exact absurd (hlaid.sadSize .sys).2 (by decide)

end Kolibri.DiskCache.Layout
