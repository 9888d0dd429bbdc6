import Kolibri.DiskCache.Lookup

/-! # Reads and writes, sector by sector -/

namespace Kolibri.DiskCache

open Stretch Function Option

variable {α : Type*} {w : World} {c c' : Cache α} {d : Disk α} {i : Which} {s : BitVec 64}

/-! ## Caches with less to do -/

structure Shrinks (c c' : Cache α) : Prop where
  sadSize : c'.sadSize = c.sadSize
  pointer : c'.pointer = c.pointer
  sectorSizeLog : c'.sectorSizeLog = c.sectorSizeLog
  dirty : ∀ k s, Dirty c' k s → Dirty c k s
  empty : ∀ k, (c'.item k).status = .empty → (c.item k).status = .empty ∧ (c'.item k).sector = (c.item k).sector

theorem Shrinks.refl (c : Cache α) : Shrinks c c :=
  ⟨rfl, rfl, rfl, fun _ _ h => h, fun _ h => ⟨h, rfl⟩⟩

theorem Shrinks.trans {c'' : Cache α} (h : Shrinks c c') (h' : Shrinks c' c'') : Shrinks c c'' where
  sadSize := h'.sadSize.trans h.sadSize
  pointer := h'.pointer.trans h.pointer
  sectorSizeLog := h'.sectorSizeLog.trans h.sectorSizeLog
  dirty k s hk := h.dirty k s (h'.dirty k s hk)
  empty k hk := ⟨(h.empty k (h'.empty k hk).1).1, (h'.empty k hk).2.trans (h.empty k (h'.empty k hk).1).2⟩

variable {k : Nat} {d' : Disk α} {r : Located}

theorem Shrinks.status (h : Shrinks c c') (hk : Slot c k) (hmod : (c'.item k).status = .modified) :
    (c.item k).status = .modified :=
  (h.dirty k _ ⟨by rwa [Slot, h.sadSize], rfl, hmod⟩).status

theorem Shrinks.modified (h : Shrinks c c') (hs : Modified c' s) : Modified c s :=
  hs.imp fun k hk => h.dirty k s hk

theorem Shrinks.noStale (h : Shrinks c c') (hc : NoStale c) : NoStale c' := by
  intro k hk hk1 hmod hempty hnext j hj hj1 hmodj hsector
  rw [h.sadSize] at hk hj
  have hk' := h.dirty k _ ⟨⟨hk1, by rw [h.sadSize]; omega⟩, rfl, hmod⟩
  have hj' := h.dirty j _ ⟨⟨hj1, by rwa [h.sadSize]⟩, rfl, hmodj⟩
  obtain ⟨hempty', hsame⟩ := h.empty (k + 1) hempty
  refine hc k hk hk1 hk'.status hempty' ?_ j hj hj1 hj'.status ?_
  · rw [← hsame, hnext, hk'.sector]
  · rw [hj'.sector, hsector, hk'.sector]

/-- Wherever the search for a slot begins, it finds one. -/
def Roomy (c : Cache α) : Prop := ∀ ecx ≤ c.sadSize, searchForEmpty c (searchWindow c) ecx ≠ none

theorem Roomy.search (h : Roomy c) (ecx : Nat) : searchForEmpty c (searchWindow c) ecx ≠ none := by
  rcases Nat.le_total ecx c.sadSize with hle | hle
  · exact h ecx hle
  -- Behind the last slot the search goes on with the first one.
  have hlast := h c.sadSize le_rfl
  obtain ⟨n, hn⟩ := Nat.exists_eq_succ_of_ne_zero (searchWindow_pos c).ne'
  have hwrap : ¬ c.sadSize + 1 ≤ c.sadSize := by omega
  have hwrap' : ¬ ecx + 1 ≤ c.sadSize := by omega
  rw [hn] at hlast ⊢
  simpa only [searchForEmpty, if_neg hwrap, if_neg hwrap'] using hlast

theorem Shrinks.roomy (h : Shrinks c c') (hc : Roomy c) : Roomy c' := by
  intro ecx _
  have hwindow : searchWindow c' = searchWindow c := by simp [searchWindow, h.sadSize]
  rw [hwindow]
  exact search_for_empty_mono h.sadSize (fun k hk => h.status hk) (hc.search ecx)

theorem Flushed.shrinks (h : Flushed i d d') : Shrinks (d.cache i) (d'.cache i) := by
  obtain ⟨l, hcache, -⟩ := h.cache
  rw [hcache]
  refine ⟨by simp, by simp, by simp, fun k s hk => hk.of_markCopies, fun k hk => ?_⟩
  rw [markCopies_status] at hk
  split_ifs at hk
  exact ⟨hk, by simp⟩

theorem fill_copy_shrinks (x : α) : Shrinks c (c.fill k .copy x) := by
  refine ⟨rfl, rfl, rfl, fun j t hj => (fill_dirty (ne_of_fill_copy_modified hj.status)).mp hj, fun j hj => ?_⟩
  have hjk : j ≠ k := by
    rintro rfl
    simp [Cache.fill] at hj
  rw [fill_item_of_ne hjk] at hj ⊢
  exact ⟨hj, rfl⟩

theorem claim_fill_shrinks (x : α) : Shrinks c ((c.claim k s).fill k .copy x) := by
  have h := @fill_copy_shrinks _ (c.claim k s) k x
  refine ⟨rfl, rfl, rfl, fun j t hj => (claim_dirty.mp (h.dirty j t hj)).2, fun j hj => ?_⟩
  have hjk : j ≠ k := by
    rintro rfl
    simp [Cache.fill] at hj
  rw [fill_item_of_ne hjk, claim_item_of_ne hjk] at hj ⊢
  exact ⟨hj, rfl⟩

/-! ## Storing a sector that was read -/

def stored (d : Disk α) (i : Which) (r : Located) (x : α) : Disk α :=
  if ((d.cache i).item r.slot).status = .modified then d
  else d.setCache i ((d.cache i).fill r.slot .copy x)

def delivered (d : Disk α) (i : Which) (r : Located) (x : α) : α :=
  if ((d.cache i).item r.slot).status = .modified then ((d.cache i).item r.slot).data else x

theorem Locates.stored_shrinks (h : Locates i s d d' r) (x : α) :
    Shrinks (d.cache i) ((stored d' i r x).cache i) := by
  unfold stored
  cases h with
  | found hk =>
    split_ifs with hmod
    · exact .refl _
    · rw [setCache_self]
      exact fill_copy_shrinks x
  | free habsent hk hstatus =>
    rw [if_neg (by simp [Cache.claim]), setCache_self, setCache_self]
    exact claim_fill_shrinks x
  | flushed habsent hfull hflushed hk =>
    rw [if_neg (by simp [Cache.claim]), setCache_self, setCache_self]
    exact hflushed.shrinks.trans (claim_fill_shrinks x)

theorem Locates.stored_distinct (h : Locates i s d d' r) (hc : Distinct (d.cache i)) (x : α) :
    Distinct ((stored d' i r x).cache i) := by
  obtain ⟨hready, hdistinct⟩ := h.ready hc
  unfold stored
  split_ifs
  · exact hdistinct
  · rw [setCache_self]
    exact fill_distinct (by decide) hready hdistinct

theorem Locates.stored_frame (h : Locates i s d d' r) (x : α) :
    (stored d' i r x).cache i.other = d.cache i.other ∧ (stored d' i r x).capacity = d.capacity := by
  unfold stored
  split_ifs
  · exact ⟨h.frame.1, h.frame.2.1⟩
  · exact ⟨(setCache_other ..).trans h.frame.1, h.frame.2.1⟩

def Delivers (Q : BitVec 64 → α → Prop) : BitVec 64 → List α → Prop
  | _, [] => True
  | s, y :: ys => Q s y ∧ Delivers Q (s + 1) ys

theorem Delivers.eq_read {view : BitVec 64 → α} {ys : List α}
    (h : Delivers (fun s y => y = view s) s ys) : ys = readSectors view s ys.length := by
  induction ys generalizing s with
  | nil => rfl
  | cons y ys ih =>
    rw [List.length_cons, readSectors, ← h.1, ← ih h.2]

theorem Delivers.append {Q : BitVec 64 → α → Prop} {ys zs : List α} (h : Delivers Q s ys)
    (h' : Delivers Q (s + BitVec.ofNat 64 ys.length) zs) : Delivers Q s (ys ++ zs) := by
  induction ys generalizing s with
  | nil => simpa using h'
  | cons y ys ih =>
    refine ⟨h.1, ih h.2 ?_⟩
    rwa [add_one_add_ofNat]

@[simp] theorem length_readSectors (sectors : BitVec 64 → α) (s : BitVec 64) (n : Nat) :
    (readSectors sectors s n).length = n := by
  induction n generalizing s with
  | zero => rfl
  | succ n ih => simp [readSectors, ih]

structure CanLocate (w : World) (i : Which) (s : BitVec 64) (d : Disk α) : Prop where
  writes : Writes w d
  pointer : (d.cache i).pointer = true
  distinct : Distinct (d.cache i)
  calm : CalmFlush (d.cache i) s

section StoreRule

variable {P : BitVec 64 → List α → Disk α → Prop} {Q : BitVec 64 → α → Prop}

/-- `P` holds with the sectors that are still to be stored, and `Q` of what the caller gets. -/
theorem store_to_cache_rule (hneeds : ∀ s x xs d, P s (x :: xs) d → CanLocate w i s d)
    (hstep : ∀ s x xs d d' r, P s (x :: xs) d → Locates i s d d' r →
      P (s + 1) xs (stored d' i r x) ∧ Q s (delivered d' i r x))
    (xs : List α) (hP : P s xs d) :
    ∃ d' ys, storeToCache w i s xs d = some (d', s + BitVec.ofNat 64 xs.length, ys) ∧
      ys.length = xs.length ∧ Delivers Q s ys ∧ P (s + BitVec.ofNat 64 xs.length) [] d' := by
  induction xs generalizing s d with
  | nil => exact ⟨d, [], by simp [storeToCache], rfl, trivial, by simpa using hP⟩
  | cons x xs ih =>
    obtain ⟨hw, hpointer, hdistinct, hcalm⟩ := hneeds s x xs d hP
    obtain ⟨d₁, r, hlookup, hlocates⟩ := cache_lookup_write_spec hw hpointer hdistinct hcalm
    obtain ⟨hP1, hQ⟩ := hstep s x xs d d₁ r hP hlocates
    obtain ⟨d', ys, hrun, hlen, hys, hP'⟩ := ih hP1
    rw [add_one_add_ofNat] at hrun hP'
    refine ⟨d', delivered d₁ i r x :: ys, ?_, by simp [hlen], ⟨hQ, hys⟩, hP'⟩
    simp only [storeToCache, hlookup, bind_eq_bind, bind_some]
    unfold stored at hrun
    unfold delivered
    split_ifs at hrun ⊢ <;> simp only [hrun, bind_some, List.length_cons]

end StoreRule

/-! ## Reading in chunks -/

section ReadRule

variable {P : BitVec 64 → Nat → Disk α → Prop} {Q : BitVec 64 → α → Prop} {I : Disk α → Prop}

/-- `P` holds with the sectors that are still to be read, and `I` whenever the loop is left. -/
theorem read_loop_rule
    (hchunk : ∀ s n numSectors d, 0 < n → n ≤ numSectors → P s numSectors d →
      ∃ d' ys, storeToCache w i s (readSectors d.sectors s (sectorsDone n (w.read d.time s n)))
          { d with time := d.time + 1 } = some (d', s + BitVec.ofNat 64 (sectorsDone n (w.read d.time s n)), ys) ∧
        ys.length = sectorsDone n (w.read d.time s n) ∧ Delivers Q s ys ∧ I d' ∧
        P (s + BitVec.ofNat 64 n) (numSectors - n) d')
    (fuel iterationSize numSectors : Nat) (error : BitVec 32) (hnum : 0 < numSectors)
    (hfuel : numSectors ≤ fuel) (hiter : 0 < iterationSize) (hP : P s numSectors d) :
    ∃ d' error' left ys, readLoop w i fuel iterationSize s numSectors error d = some (d', error', left, ys) ∧
      I d' ∧ Delivers Q s ys ∧
      ((∀ t s' n d, P s' n d → ∀ m ≤ n, w.read t s' m = none) →
        error' = error ∧ left = 0 ∧ ys.length = numSectors) := by
  induction fuel generalizing s d iterationSize numSectors error with
  | zero => omega
  | succ fuel ih =>
    simp only [readLoop]
    generalize hn : min iterationSize numSectors = n
    obtain ⟨d₁, ys, hstore, hlen, hys, hInv, hP1⟩ := hchunk s n numSectors d (by omega) (by omega) hP
    generalize hgot : sectorsDone n (w.read d.time s n) = got at hstore hlen
    generalize herror : (if (w.read d.time s n).isNone then error else errorCode (w.read d.time s n)) = error1
    have hfull : (∀ t s' n d, P s' n d → ∀ m ≤ n, w.read t s' m = none) → error1 = error ∧ got = n := by
      intro hread
      have := hread d.time s numSectors d hP n (by omega)
      exact ⟨by rw [← herror, this]; rfl, by rw [← hgot, this]; rfl⟩
    simp only [hstore, bind_eq_bind, bind_some]
    split_ifs with hshort hleft
    · exact ⟨_, _, _, _, rfl, hInv, hys, fun hread => absurd (hfull hread).2 hshort⟩
    · refine ⟨_, _, _, _, rfl, hInv, hys, fun hread => ⟨(hfull hread).1, rfl, ?_⟩⟩
      rw [hlen, (hfull hread).2]
      omega
    · have hall : got = n := by simpa using hshort
      obtain ⟨d', error', left, zs, hrun, hInv', hzs, hrest⟩ := ih n (numSectors - n) error1 (by omega)
        (by omega) (by omega) hP1
      rw [hall, hrun]
      refine ⟨d', error', left, ys ++ zs, rfl, hInv', hys.append (by rwa [hlen, hall]), fun hread => ?_⟩
      obtain ⟨herror', hleft', hlen'⟩ := hrest hread
      refine ⟨herror'.trans (hfull hread).1, hleft', ?_⟩
      rw [List.length_append, hlen, hlen']
      omega

end ReadRule

/-! ## Writing a sector -/

inductive Drops (s : BitVec 64) (c : Cache α) : Cache α → Prop
  | absent (h : ¬ Present c s) : Drops s c c
  | dropped {k : Nat} (h : Holds c k s) : Drops s c (c.setStatus k .empty)

structure WritesSector (i : Which) (s : BitVec 64) (x : α) (d d' : Disk α) : Prop where
  cache : ∃ d₁ r, Locates i s d d₁ r ∧ d'.cache i = (d₁.cache i).fill r.slot .modified x ∧ d'.sectors = d₁.sectors
  other : Drops s (d.cache i.other) (d'.cache i.other)
  capacity : d'.capacity = d.capacity

theorem write_sector_spec (h : CanLocate w i s d) (x : α) :
    ∃ d', writeSector w i d s x = some (d', 0) ∧ WritesSector i s x d d' := by
  obtain ⟨d₁, r, hlookup, hlocates⟩ := cache_lookup_write_spec h.writes h.pointer h.distinct h.calm
  simp only [writeSector, hlookup, bind_eq_bind, bind_some, setCache_other]
  cases hl : cacheLookupRead (d₁.cache i.other) s with
  | none =>
    refine ⟨_, rfl, ⟨d₁, r, hlocates, setCache_self .., rfl⟩, ?_, hlocates.frame.2.1⟩
    rw [setCache_other, hlocates.frame.1]
    rw [hlocates.frame.1] at hl
    exact .absent (cache_lookup_read_none.mp hl)
  | some k =>
    refine ⟨_, rfl, ⟨d₁, r, hlocates, ?_, rfl⟩, ?_, hlocates.frame.2.1⟩
    · rw [setCache_this, setCache_self]
    · rw [setCache_self, hlocates.frame.1]
      rw [hlocates.frame.1] at hl
      exact .dropped (cache_lookup_read_some hl)

section WriteRule

variable {P : BitVec 64 → List α → Disk α → Prop}

theorem write_loop_rule (hneeds : ∀ s x xs d, P s (x :: xs) d → CanLocate w i s d)
    (hstep : ∀ s x xs d d', P s (x :: xs) d → writeSector w i d s x = some (d', 0) →
      WritesSector i s x d d' → P (s + 1) xs d')
    (xs : List α) (hP : P s xs d) :
    ∃ d', writeLoop w i s xs d = some (d', 0, 0) ∧ P (s + BitVec.ofNat 64 xs.length) [] d' := by
  induction xs generalizing s d with
  | nil => exact ⟨d, rfl, by simpa using hP⟩
  | cons x xs ih =>
    obtain ⟨d₁, hwrite, hspec⟩ := write_sector_spec (hneeds s x xs d hP) x
    obtain ⟨d', hrun, hP'⟩ := ih (hstep s x xs d d₁ hP hwrite hspec)
    rw [add_one_add_ofNat] at hP'
    refine ⟨d', ?_, hP'⟩
    simp only [writeLoop, hwrite, bind_eq_bind, bind_some, ne_eq, not_true_eq_false, if_false]
    exact hrun

end WriteRule

end Kolibri.DiskCache
