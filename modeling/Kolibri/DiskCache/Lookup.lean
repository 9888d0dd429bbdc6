import Kolibri.DiskCache.Flush

/-! # `cache_lookup_write`

The sector is there, a slot is free for it, or one is after a flush.
-/

namespace Kolibri.DiskCache

open Stretch Function

variable {α : Type*} {w : World} {c : Cache α} {d : Disk α} {i : Which} {s : BitVec 64}

structure Writes (w : World) (d : Disk α) : Prop where
  write : ∀ t s n, w.write t s n = none
  buffer : ∀ i t n, tempBuffer w t (d.cache i).sectorSizeLog n ≠ none

@[simp] theorem Which.other_ne (i : Which) : i.other ≠ i := by cases i <;> decide

@[simp] theorem setCache_self (d : Disk α) (i : Which) (c : Cache α) : (d.setCache i c).cache i = c :=
  update_self ..

@[simp] theorem setCache_other (d : Disk α) (i : Which) (c : Cache α) :
    (d.setCache i c).cache i.other = d.cache i.other :=
  update_of_ne i.other_ne ..

@[simp] theorem setCache_this (d : Disk α) (i : Which) (c : Cache α) : (d.setCache i.other c).cache i = d.cache i :=
  update_of_ne i.other_ne.symm ..

@[simp] theorem setCache_sectors (d : Disk α) (i : Which) (c : Cache α) : (d.setCache i c).sectors = d.sectors := rfl

@[simp] theorem setCache_capacity (d : Disk α) (i : Which) (c : Cache α) :
    (d.setCache i c).capacity = d.capacity := rfl

theorem forall_which {P : Which → Prop} (i : Which) (h : P i) (h' : P i.other) : ∀ j, P j := by
  intro j
  cases i <;> cases j <;> assumption

/-! ## The flush of one of the caches -/

structure Flushed (i : Which) (d d' : Disk α) : Prop where
  cache : ∃ l, d'.cache i = (d.cache i).markCopies l ∧ ∀ k ∈ l, ((d.cache i).item k).status = .modified
  other : d'.cache i.other = d.cache i.other
  capacity : d'.capacity = d.capacity
  clean : ∀ s, ¬ Modified (d'.cache i) s
  saved : ∀ k s, Dirty (d.cache i) k s → d'.sectors s = ((d.cache i).item k).data
  same : ∀ s, ¬ Modified (d.cache i) s → d'.sectors s = d.sectors s

theorem flush_spec (hw : Writes w d) (hpointer : (d.cache i).pointer = true) (hc : Calm (d.cache i)) :
    ∃ d', flush w i d = some (d', 0) ∧ Flushed i d d' := by
  obtain ⟨f, l, hrun, hcomplete, hcache, hl⟩ :=
    write_cache64_complete hw.write hpointer (hw.buffer i) hc d.time d.sectors
  refine ⟨{ d.setCache i f.cache with
    sectors := f.calls.foldl WriteCall.apply d.sectors
    time := f.time }, by simp [flush, hrun], ⟨l, ?_, hl⟩, ?_, rfl, ?_, hcomplete.saved,
    fun s hs => hcomplete.other hs⟩
  · exact (setCache_self d i f.cache).trans hcache
  · exact setCache_other d i f.cache
  · intro s
    rw [setCache_self]
    exact hcomplete.clean s

/-! ## Searching a slot -/

variable {ecx k n j : Nat} {t : BitVec 64} {st : Status} {x : α} {d' : Disk α} {r : Located}

theorem search_for_empty_some (h : searchForEmpty c n ecx = some k) : Slot c k ∧ (c.item k).status ≠ .modified := by
  induction n generalizing ecx with
  | zero => cases h
  | succ n ih =>
    simp only [searchForEmpty] at h
    generalize hecx : (if ecx + 1 ≤ c.sadSize then ecx + 1 else 1) = next at h
    have hslot : Slot c next := by
      have := c.sadSize_pos
      unfold Slot
      split_ifs at hecx <;> omega
    split_ifs at h with hstatus
    · obtain rfl := Option.some.inj h
      exact ⟨hslot, hstatus⟩
    · exact ih h

theorem searchWindow_pos (c : Cache α) : 0 < searchWindow c := by
  unfold searchWindow
  split_ifs <;> omega

theorem search_for_empty_mono {c' : Cache α} (hsize : c'.sadSize = c.sadSize)
    (hmod : ∀ k, Slot c k → (c'.item k).status = .modified → (c.item k).status = .modified)
    (h : searchForEmpty c n ecx ≠ none) : searchForEmpty c' n ecx ≠ none := by
  induction n generalizing ecx with
  | zero => exact absurd rfl h
  | succ n ih =>
    simp only [searchForEmpty, hsize] at h ⊢
    generalize hecx : (if ecx + 1 ≤ c.sadSize then ecx + 1 else 1) = next at h ⊢
    have hslot : Slot c next := by
      have := c.sadSize_pos
      unfold Slot
      split_ifs at hecx <;> omega
    split_ifs with hstatus
    · simp
    · rw [if_neg (by simpa using hmod next hslot (by simpa using hstatus))] at h
      exact ih h

theorem search_for_empty_clean (h : ∀ s, ¬ Modified c s) (ecx : Nat) :
    searchForEmpty c (searchWindow c) ecx ≠ none := by
  obtain ⟨n, hn⟩ := Nat.exists_eq_succ_of_ne_zero (searchWindow_pos c).ne'
  rw [hn]
  simp only [searchForEmpty]
  generalize hecx : (if ecx + 1 ≤ c.sadSize then ecx + 1 else 1) = next
  have hslot : Slot c next := by
    have := c.sadSize_pos
    unfold Slot
    split_ifs at hecx <;> omega
  rw [if_pos fun hstatus => h _ ⟨next, hslot, rfl, hstatus⟩]
  simp

/-! ## The lookup -/

inductive Locates (i : Which) (s : BitVec 64) (d : Disk α) : Disk α → Located → Prop
  | found {k : Nat} (hk : Holds (d.cache i) k s) : Locates i s d d ⟨k, s.extractLsb' 32 32⟩
  | free {k : Nat} (habsent : ¬ Present (d.cache i) s) (hk : Slot (d.cache i) k)
    (hstatus : ((d.cache i).item k).status ≠ .modified) :
    Locates i s d (d.setCache i ((d.cache i).claim k s)) ⟨k, s.extractLsb' 32 32⟩
  | flushed {k : Nat} {d' : Disk α} {edx : BitVec 32} (habsent : ¬ Present (d.cache i) s)
    (hfull : searchForEmpty (d.cache i) (searchWindow (d.cache i)) (d.cache i).searchStart = none)
    (hflushed : Flushed i d d') (hk : Slot (d.cache i) k) :
    Locates i s d (d'.setCache i ((d'.cache i).claim k s)) ⟨k, edx⟩

def CalmFlush (c : Cache α) (s : BitVec 64) : Prop :=
  cacheLookupRead c s = none → searchForEmpty c (searchWindow c) c.searchStart = none → NoStale c

theorem cache_lookup_write_spec (hw : Writes w d) (hpointer : (d.cache i).pointer = true)
    (hc : Distinct (d.cache i)) (hcalm : CalmFlush (d.cache i) s) :
    ∃ d' r, cacheLookupWrite w i s d = some (d', .ok r) ∧ Locates i s d d' r := by
  unfold cacheLookupWrite
  cases hl : cacheLookupRead (d.cache i) s with
  | some k => exact ⟨d, _, rfl, .found (cache_lookup_read_some hl)⟩
  | none =>
    have habsent := cache_lookup_read_none.mp hl
    simp only [searchAgain]
    cases hsearch : searchForEmpty (d.cache i) (searchWindow (d.cache i)) (d.cache i).searchStart with
    | some k =>
      obtain ⟨hslot, hstatus⟩ := search_for_empty_some hsearch
      exact ⟨_, _, rfl, .free habsent hslot hstatus⟩
    | none =>
      obtain ⟨d1, hflush, hflushed⟩ := flush_spec hw hpointer ⟨hc, hcalm hl hsearch⟩
      -- Behind the flush the first slot will do.
      obtain ⟨n, hn⟩ := Nat.exists_eq_succ_of_ne_zero (d.cache i).sadSize_pos.ne'
      obtain ⟨k, hk⟩ := Option.ne_none_iff_exists'.mp
        (search_for_empty_clean hflushed.clean (d1.cache i).searchStart)
      obtain ⟨l, hcache, -⟩ := hflushed.cache
      have hslot : Slot (d.cache i) k := by
        have := (search_for_empty_some hk).1
        rwa [hcache, Slot, markCopies_sadSize] at this
      refine ⟨_, ⟨k, w.edx d1.time⟩, ?_, .flushed habsent hsearch hflushed hslot⟩
      simp [hflush, hn, searchAgain, hk]

/-! ## Claiming and filling a slot -/

@[simp] theorem claim_sadSize (c : Cache α) (k : Nat) (s : BitVec 64) : (c.claim k s).sadSize = c.sadSize := rfl

@[simp] theorem fill_sadSize (c : Cache α) (k : Nat) (st : Status) (x : α) :
    (c.fill k st x).sadSize = c.sadSize := rfl

structure Ready (c : Cache α) (k : Nat) (s : BitVec 64) : Prop where
  slot : Slot c k
  sector : (c.item k).sector = s
  unique : ∀ j, Holds c j s → j = k

theorem claim_item_of_ne (hj : j ≠ k) : (c.claim k s).item j = c.item j := update_of_ne hj ..

theorem fill_item_of_ne (hj : j ≠ k) : (c.fill k st x).item j = c.item j := update_of_ne hj ..

theorem fill_dirty (hj : j ≠ k) : Dirty (c.fill k st x) j t ↔ Dirty c j t := dirty_congr rfl (fill_item_of_ne hj)

theorem ne_of_fill_copy_modified (h : ((c.fill k .copy x).item j).status = .modified) : j ≠ k := by
  rintro rfl
  simp [Cache.fill] at h

theorem claim_holds : Holds (c.claim k s) j t ↔ j ≠ k ∧ Holds c j t := by
  by_cases hj : j = k
  · subst hj
    exact ⟨fun h => absurd h.used (by simp [Cache.claim]), fun h => absurd rfl h.1⟩
  · rw [holds_congr (claim_sadSize ..) (claim_item_of_ne hj), and_iff_right hj]

theorem claim_dirty : Dirty (c.claim k s) j t ↔ j ≠ k ∧ Dirty c j t := by
  by_cases hj : j = k
  · subst hj
    exact ⟨fun h => absurd h.status (by simp [Cache.claim]), fun h => absurd rfl h.1⟩
  · rw [dirty_congr (claim_sadSize ..) (claim_item_of_ne hj), and_iff_right hj]

theorem claim_distinct (hc : Distinct c) (k : Nat) (s : BitVec 64) : Distinct (c.claim k s) :=
  fun _ _ _ hj hk => hc _ _ _ (claim_holds.mp hj).2 (claim_holds.mp hk).2

theorem claim_ready (hk : Slot c k) (habsent : ¬ Present c s) : Ready (c.claim k s) k s where
  slot := hk
  sector := by simp [Cache.claim]
  unique j hj := absurd ⟨j, (claim_holds.mp hj).2⟩ habsent

theorem fill_holds (hst : st ≠ .empty) (hready : Ready c k s) :
    Holds (c.fill k st x) j t ↔ (j = k ∧ t = s) ∨ (j ≠ k ∧ Holds c j t) := by
  by_cases hj : j = k
  · subst hj
    simp only [true_and, ne_eq, not_true_eq_false, false_and, or_false]
    constructor
    · rintro ⟨-, hsector, -⟩
      simpa [Cache.fill, hready.sector, eq_comm] using hsector
    · rintro rfl
      exact ⟨hready.slot, by simp [Cache.fill, hready.sector], by simpa [Cache.fill] using hst⟩
  · rw [holds_congr (fill_sadSize ..) (fill_item_of_ne hj)]
    simp [hj]

theorem fill_distinct (hst : st ≠ .empty) (hready : Ready c k s) (hc : Distinct c) : Distinct (c.fill k st x) := by
  intro j l t hj hl
  rw [fill_holds hst hready] at hj hl
  rcases hj with ⟨rfl, rfl⟩ | ⟨hjk, hj⟩ <;> rcases hl with ⟨rfl, ht⟩ | ⟨hlk, hl⟩
  · rfl
  · exact absurd (hready.unique l hl) hlk
  · subst ht
    exact absurd (hready.unique j hj) hjk
  · exact hc j l t hj hl

theorem Flushed.distinct (h : Flushed i d d') (hc : Distinct (d.cache i)) : Distinct (d'.cache i) := by
  obtain ⟨l, hcache, hl⟩ := h.cache
  rw [hcache]
  exact hc.markCopies hl

theorem Flushed.present (h : Flushed i d d') (habsent : ¬ Present (d.cache i) s) : ¬ Present (d'.cache i) s := by
  obtain ⟨l, hcache, hl⟩ := h.cache
  rintro ⟨k, hk⟩
  rw [hcache] at hk
  refine habsent ⟨k, by simpa [Slot] using hk.slot, by simpa using hk.sector, ?_⟩
  have hused := hk.used
  rw [markCopies_status] at hused
  split_ifs at hused with hmem
  · rw [hl k hmem]
    decide
  · exact hused

theorem Flushed.slot (h : Flushed i d d') : Slot (d'.cache i) k ↔ Slot (d.cache i) k := by
  obtain ⟨l, hcache, -⟩ := h.cache
  rw [hcache]
  simp [Slot]

theorem Locates.ready (h : Locates i s d d' r) (hc : Distinct (d.cache i)) :
    Ready (d'.cache i) r.slot s ∧ Distinct (d'.cache i) := by
  cases h with
  | found hk => exact ⟨⟨hk.slot, hk.sector, fun j hj => hc _ _ _ hj hk⟩, hc⟩
  | free habsent hk hstatus =>
    rw [setCache_self]
    exact ⟨claim_ready hk habsent, claim_distinct hc _ _⟩
  | flushed habsent hfull hflushed hk =>
    rw [setCache_self]
    exact ⟨claim_ready (hflushed.slot.mpr hk) (hflushed.present habsent), claim_distinct (hflushed.distinct hc) _ _⟩

theorem Locates.frame (h : Locates i s d d' r) :
    d'.cache i.other = d.cache i.other ∧ d'.capacity = d.capacity ∧
      (d'.cache i).sadSize = (d.cache i).sadSize ∧ (d'.cache i).pointer = (d.cache i).pointer ∧
      (d'.cache i).sectorSizeLog = (d.cache i).sectorSizeLog := by
  cases h with
  | found hk => simp
  | free habsent hk hstatus => simp [Cache.claim]
  | flushed habsent hfull hflushed hk =>
    obtain ⟨l, hcache, -⟩ := hflushed.cache
    simp [Cache.claim, hcache, hflushed.other, hflushed.capacity]

end Kolibri.DiskCache
