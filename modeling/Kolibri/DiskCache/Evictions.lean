import Kolibri.DiskCache.Requests

/-! # Evictions with any driver

A flush that reports success has cleaned an item, so the search for a slot comes to an end.
-/

namespace Kolibri.DiskCache

open Stretch Function

variable {α : Type*} {w : World} {c : Cache α} {d : Disk α} {i : Which} {s : BitVec 64}

/-! ## The calls of a flush -/

structure Advances (w : World) (P : BitVec 64 → Prop) (f f' : Flush α) : Prop where
  cache : ∃ l, f'.cache = f.cache.markCopies l
  calls : ∃ calls, f'.calls = f.calls ++ calls ∧ ∀ call ∈ calls,
    call.numSectors = sectorsDone call.slots.length (w.write call.time call.start call.slots.length) ∧
      ∀ t ∈ stretch call.start call.numSectors, P t

def Accepts (w : World) : Prop := ∃ t s n, w.write t s n = none

def numModified (c : Cache α) : Nat :=
  ((Finset.Icc 1 c.sadSize).filter fun k => (c.item k).status = .modified).card

structure Evicts (w : World) (i : Which) (d d' : Disk α) (eax : BitVec 32) : Prop where
  cache : ∃ l, d'.cache i = (d.cache i).markCopies l
  same : ∀ s, ¬ Modified (d.cache i) s → d'.sectors s = d.sectors s
  untouched : (∀ t s n, sectorsDone n (w.write t s n) = 0) → d'.sectors = d.sectors
  cleans : (d.cache i).pointer = true → eax = 0 → (∃ s, Modified (d.cache i) s) →
    numModified (d'.cache i) < numModified (d.cache i) ∧ Accepts w

structure Kept (i : Which) (d d' : Disk α) : Prop where
  pointer : (d'.cache i).pointer = (d.cache i).pointer
  clean : ∀ s, ¬ Modified (d.cache i) s → ¬ Modified (d'.cache i) s
  same : ∀ s, ¬ Modified (d.cache i) s → d'.sectors s = d.sectors s

theorem Kept.refl (i : Which) (d : Disk α) : Kept i d d := ⟨rfl, fun _ h => h, fun _ _ => rfl⟩

variable {d' : Disk α}

theorem Kept.trans {d'' : Disk α} (h : Kept i d d') (h' : Kept i d' d'') : Kept i d d'' where
  pointer := h'.pointer.trans h.pointer
  clean s hs := h'.clean s (h.clean s hs)
  same s hs := (h'.same s (h.clean s hs)).trans (h.same s hs)

theorem Evicts.kept {eax : BitVec 32} (h : Evicts w i d d' eax) : Kept i d d' := by
  obtain ⟨l, hl⟩ := h.cache
  refine ⟨by rw [hl, markCopies_pointer], fun s hs hmod => ?_, h.same⟩
  rw [hl] at hmod
  exact hs (hmod.imp fun k hk => hk.of_markCopies)

end Kolibri.DiskCache
