import Kolibri.DiskCache.Evictions

/-! # Reading in chunks

If a sector finds no slot, the loop of step 12 is left, and the next chunk is read from there.
-/

namespace Kolibri.DiskCache

open Stretch Function List Option Nat

variable {α : Type*} {w : World} {c c' : Cache α} {d : Disk α} {i : Which} {s : BitVec 64}

/-! ## What is to be read -/

def Disk.holding (d : Disk α) (i : Which) (sectors : BitVec 64 → α) : Disk α :=
  let c := d.cache i
  let item k := if (c.item k).status = .copy then { c.item k with data := sectors (c.item k).sector } else c.item k
  { d.setCache i { c with item } with sectors }

structure Alike (c c' : Cache α) : Prop where
  sadSize : c'.sadSize = c.sadSize
  searchStart : c'.searchStart = c.searchStart
  sector : ∀ k, (c'.item k).sector = (c.item k).sector
  status : ∀ k, (c'.item k).status = (c.item k).status

theorem Alike.lookup (h : Alike c c') (s : BitVec 64) : cacheLookupRead c' s = cacheLookupRead c s := by
  simp [cacheLookupRead, h.sadSize, h.sector, h.status]

theorem Alike.searchWindow (h : Alike c c') : searchWindow c' = searchWindow c := by
  simp [DiskCache.searchWindow, h.sadSize]

theorem Alike.search (h : Alike c c') (n ecx : Nat) : searchForEmpty c' n ecx = searchForEmpty c n ecx := by
  induction n generalizing ecx with
  | zero => rfl
  | succ n ih => simp [searchForEmpty, h.sadSize, h.status, ih]

theorem Alike.modified (h : Alike c c') (hs : Modified c' s) : Modified c s := by
  obtain ⟨k, hslot, hsector, hstatus⟩ := hs
  exact ⟨k, by rwa [Slot, h.sadSize] at hslot, (h.sector k).symm.trans hsector, (h.status k).symm.trans hstatus⟩

def Refuses (w : World) : Prop := ∀ t s n, ∃ e : Failure, w.write t s n = some e ∧ e.numSectors = 0

theorem Refuses.untouched (h : Refuses w) (t : Nat) (s : BitVec 64) (n : Nat) : sectorsDone n (w.write t s n) = 0 := by
  obtain ⟨e, he, hzero⟩ := h t s n
  rw [he, sectorsDone, hzero, Nat.zero_min]

section Holding

variable (d i) (sectors : BitVec 64 → α)

end Holding

/-- The driver of `w`, with a disk that cannot be written. -/
theorem error_ne : (1 : BitVec 32) ≠ 0 := by decide

end Kolibri.DiskCache
