import Kolibri.DiskCache.Calls

/-!
# A flush with a driver that does not fail

In a calm cache all that is modified is written.
-/

namespace Kolibri.DiskCache

open Stretch Function List

variable {α : Type*} {w : World} {c : Cache α} {k : Nat} {s : BitVec 64}

variable {l : List Nat} {calls : List (WriteCall α)} {c' : Cache α} {f : Flush α} {t : BitVec 64}

theorem write_sectors_other (sectors : BitVec 64 → α) (lo : BitVec 64) (xs : List α) (ht : t ∉ stretch lo xs.length) :
    writeSectors sectors lo xs t = sectors t := by
  induction xs generalizing sectors lo with
  | nil => rfl
  | cons x xs ih =>
    simp only [length_cons, stretch_succ, mem_cons, not_or] at ht
    rw [writeSectors, ih _ _ ht.2, update_of_ne ht.1]

theorem write_sectors_item (sectors : BitVec 64 → α) (item : Nat → Item α) (lo : BitVec 64)
    (slots : List Nat) (hsectors : slots.map (fun k => (item k).sector) = stretch lo slots.length)
    (hnodup : (stretch lo slots.length).Nodup) (hk : k ∈ slots) :
    writeSectors sectors lo (slots.map fun k => (item k).data) (item k).sector = (item k).data := by
  induction slots generalizing sectors lo with
  | nil => cases hk
  | cons j slots ih =>
    simp only [map_cons, length_cons, stretch_succ, List.cons.injEq] at hsectors
    simp only [length_cons, stretch_succ, nodup_cons] at hnodup
    simp only [map_cons, writeSectors]
    by_cases hmem : k ∈ slots
    · exact ih _ _ hsectors.2 hnodup.2 hmem
    · obtain rfl : k = j := by simpa [hmem] using hk
      rw [hsectors.1, write_sectors_other _ _ _ (by simpa using hnodup.1), update_self]

theorem Sound.apply_slot {call : WriteCall α} (h : Sound call) (hk : k ∈ call.slots)
    (sectors : BitVec 64 → α) :
    call.apply sectors (call.before.item k).sector = (call.before.item k).data := by
  have htake : call.buffer.take call.numSectors = call.buffer := by
    rw [h.written, h.buffer]
    exact take_of_length_le (by simp)
  rw [WriteCall.apply, htake, h.buffer]
  exact write_sectors_item sectors _ _ _ h.sectors h.stretch_nodup hk

theorem apply_other (call : WriteCall α) (sectors : BitVec 64 → α) (ht : t ∉ stretch call.start call.numSectors) :
    call.apply sectors t = sectors t := by
  refine write_sectors_other _ _ _ fun hmem => ht (mem_stretch_mono ?_ hmem)
  simp

theorem foldl_apply_other (calls : List (WriteCall α)) (sectors : BitVec 64 → α)
    (ht : ∀ call ∈ calls, t ∉ stretch call.start call.numSectors) :
    calls.foldl WriteCall.apply sectors t = sectors t := by
  induction calls generalizing sectors with
  | nil => rfl
  | cons call calls ih =>
    rw [foldl_cons, ih _ fun x hx => ht x (mem_cons_of_mem _ hx), apply_other call sectors (ht call mem_cons_self)]

theorem Calls.only_modified (h : Calls c calls c')
    (hdirty : ∀ call ∈ calls, ∀ k ∈ call.slots, (call.before.item k).status = .modified) :
    ∀ call ∈ calls, ∀ t ∈ stretch call.start call.numSectors, Modified c t := by
  induction calls generalizing c with
  | nil => intro call hcall; cases hcall
  | cons first calls ih =>
    obtain ⟨rfl, hsound, hrest⟩ := h
    intro call hcall t ht
    rcases mem_cons.mp hcall with rfl | hcall
    · rw [hsound.written, ← hsound.sectors] at ht
      obtain ⟨k, hk, hsector⟩ := mem_map.mp ht
      exact ⟨k, hsound.slots k hk, hsector, hdirty call mem_cons_self k hk⟩
    · obtain ⟨k, hk⟩ := ih hrest (fun x hx => hdirty x (mem_cons_of_mem _ hx)) call hcall t ht
      exact ⟨k, hk.of_markCopies⟩

theorem Calls.on_disk (h : Calls c calls c') (hc : Distinct c)
    (hdirty : ∀ call ∈ calls, ∀ k ∈ call.slots, (call.before.item k).status = .modified) (sectors : BitVec 64 → α)
    (hk : Dirty c k s) (hmarked : ∃ call ∈ calls, k ∈ call.slots) :
    calls.foldl WriteCall.apply sectors s = (c.item k).data := by
  induction calls generalizing c sectors with
  | nil => obtain ⟨call, hcall, -⟩ := hmarked; cases hcall
  | cons first calls ih =>
    obtain ⟨rfl, hsound, hrest⟩ := h
    have hfirst := hdirty first mem_cons_self
    have hlater : ∀ call ∈ calls, ∀ k ∈ call.slots, (call.before.item k).status = .modified :=
      fun x hx => hdirty x (mem_cons_of_mem _ hx)
    rw [foldl_cons]
    by_cases hmem : k ∈ first.slots
    · -- The calls behind it leave the sector alone: it is not modified any more.
      rw [foldl_apply_other, ← hk.sector]
      · exact hsound.apply_slot hmem sectors
      · intro call hcall ht
        obtain ⟨j, hj⟩ := hrest.only_modified hlater call hcall s ht
        rw [hc.dirty hj.of_markCopies hk] at hj
        exact (markCopies_modified hj.status).1 hmem
    · rw [ih hrest (hc.markCopies hfirst) hlater _ (hk.markCopies hmem), markCopies_data]
      obtain ⟨call, hcall, hj⟩ := hmarked
      rcases mem_cons.mp hcall with rfl | hcall
      · exact absurd hj hmem
      · exact ⟨call, hcall, hj⟩

structure FlushComplete (c : Cache α) (sectors : BitVec 64 → α) (f : Flush α) : Prop where
  clean : ∀ s, ¬ Modified f.cache s
  saved : ∀ k s, Dirty c k s → f.calls.foldl WriteCall.apply sectors s = (c.item k).data
  only : ∀ call ∈ f.calls, ∀ t ∈ stretch call.start call.numSectors, Modified c t

theorem FlushComplete.other {sectors : BitVec 64 → α} (h : FlushComplete c sectors f) (hs : ¬ Modified c s) :
    f.calls.foldl WriteCall.apply sectors s = sectors s :=
  foldl_apply_other _ _ fun call hcall hmem => hs (h.only call hcall s hmem)

theorem write_cache64_complete (hw : ∀ t s n, w.write t s n = none) (hpointer : c.pointer = true)
    (hbuffer : ∀ t n, tempBuffer w t c.sectorSizeLog n ≠ none) (hc : Calm c) (time : Nat)
    (sectors : BitVec 64 → α) :
    ∃ f l, writeCache64 w c time = some (f, 0) ∧ FlushComplete c sectors f ∧ f.cache = c.markCopies l ∧
      ∀ k ∈ l, (c.item k).status = .modified := by
  obtain ⟨calls, ⟨f, eax⟩, r', -, hrun, hmade, hplan, hcut, heax, hlooked⟩ := write_cache64_flushes w c time
  obtain rfl : eax = 0 := heax hbuffer
  -- No call is refused.
  cases hcut with
  | short _ hrefused => simp [World.refusal, hw] at hrefused
  | through _ =>
  have hmade : f.calls = calls := by simpa using hmade
  have hdirty := hplan.dirty hc
  have hchain : Calls c calls f.cache := hplan.chain
  have hclean : ∀ s, ¬ Modified f.cache s := by
    rintro s ⟨k, hk⟩
    have hslot := hk.slot
    rw [Slot, hchain.sadSize] at hslot
    exact (hlooked rfl hpointer).all hc k ⟨hslot.2, by dsimp only; omega⟩ hk.status
  refine ⟨f, calls.flatMap (·.slots), hrun, ⟨hclean, ?_, ?_⟩, hchain.cache_eq, ?_⟩
  · intro k s hk
    rw [hmade]
    refine hchain.on_disk hc.distinct hdirty sectors hk ?_
    rcases hchain.status k with ⟨hmarked, -⟩ | ⟨-, hstatus⟩
    · exact hmarked
    · refine absurd ⟨k, ?_, ?_, hstatus.trans hk.status⟩ (hclean s)
      · simpa [Slot, hchain.sadSize] using hk.slot
      · rw [hchain.cache_eq, markCopies_sector]
        exact hk.sector
  · rw [hmade]
    exact hchain.only_modified hdirty
  · intro k hk
    obtain ⟨call, hcall, hmem⟩ := mem_flatMap.mp hk
    obtain ⟨before, behind, rfl⟩ := append_of_mem hcall
    exact (hchain.split.1.modified_before (hdirty call hcall k hmem)).1

end Kolibri.DiskCache
