import Kolibri.DiskCache.FlushRuns

/-! # The cache behaves as the disk

The disk without a cache is a function from sectors to data.
-/

namespace Kolibri.DiskCache

open Stretch Run Function List Option

variable {α : Type*} {w : World} {c : Cache α} {d : Disk α} {i : Which} {s : BitVec 64}
  {view sectors : BitVec 64 → α}

/-! ## What should be read -/

def contents (sectors : BitVec 64 → α) (rs : List (Request α)) : BitVec 64 → α :=
  rs.foldl (fun view r =>
    match r with
    | .write64 _ p sector buffer => writeSectors view (p.firstSector + sector) buffer
    | _ => view) sectors

def answer (view : BitVec 64 → α) : Request α → Response α
  | .write64 _ _ _ buffer => ⟨statusOk, buffer.length, []⟩
  | .read64 _ p sector n => ⟨statusOk, n, readSectors view (p.firstSector + sector) n⟩
  | .read32 _ p sector => ⟨statusOk, 1, [view (p.firstSector + sector.setWidth 64)]⟩

def Inside (i : Which) (capacity : BitVec 64) : Request α → Prop
  | .write64 j p sector buffer =>
    j = i ∧ p.firstSector.toNat + p.length.toNat ≤ capacity.toNat ∧ sector.toNat + buffer.length ≤ p.length.toNat
  | .read64 j p sector n =>
    j = i ∧ p.firstSector.toNat + p.length.toNat ≤ capacity.toNat ∧ sector.toNat + n ≤ p.length.toNat
  | .read32 j p sector =>
    j = i ∧ p.firstSector.toNat + p.length.toNat ≤ capacity.toNat ∧ sector.toNat < p.length.toNat

/-- No sector of the list is modified in the cache, or the cache has room everywhere. -/
def Undisturbed (c : Cache α) (l : List (BitVec 64)) : Prop :=
  (∀ t ∈ l, lookupModified c t = none) ∨ Roomy c

/-- A read that fetches a modified sector flushes nothing, and neither does a floppy. -/
def ReadMeets (d : Disk α) : Request α → Prop
  | .write64 .. => True
  | .read64 i p sector n =>
    Undisturbed (d.cache i)
      ((stretch (p.firstSector + sector) n).dropWhile fun t => (cacheLookupRead (d.cache i) t).isSome)
  | .read32 i p sector =>
    let start := p.firstSector + sector.setWidth 64
    cacheLookupRead (d.cache i) start = none → if isFloppy d then
        searchForEmpty (d.cache i) (searchWindow (d.cache i)) (d.cache i).searchStart ≠ none
      else Undisturbed (d.cache i) (stretch start cacheLegacyReadSize)

-- The instance of the list is given: that of all numbers of 64 bits would be found first.
instance (c : Cache α) (l : List (BitVec 64)) : Decidable (Undisturbed c l) :=
  have : Decidable (∀ t ∈ l, lookupModified c t = none) := List.decidableBAll _ l
  inferInstanceAs (Decidable (_ ∨ Roomy c))

instance (d : Disk α) : (r : Request α) → Decidable (ReadMeets d r)
  | .write64 .. => inferInstanceAs (Decidable True)
  | .read64 i _ _ _ => inferInstanceAs (Decidable (Undisturbed (d.cache i) _))
  | .read32 .. => inferInstanceAs (Decidable (_ → if isFloppy d then _ else _))

/-- The driver does what it is asked for on the disk, and memory can be had. -/
structure NeverFails (w : World) (d : Disk α) : Prop where
  writes : Writes w d
  alloc : ∀ t, w.kernelAlloc t = true
  read : ∀ t s n, s.toNat + n ≤ d.capacity.toNat → w.read t s n = none
  first : ∀ t s n, s.toNat < d.capacity.toNat → 0 < n → 0 < sectorsDone n (w.read t s n)

/-! ## Coherent caches -/

structure Coherent (c : Cache α) (sectors view : BitVec 64 → α) : Prop where
  distinct : Distinct c
  data : ∀ k s, Holds c k s → (c.item k).data = view s
  disk : ∀ s, ¬ Modified c s → sectors s = view s

variable {d' : Disk α} {k j n : Nat} {x : α} {r : Located} {p : Partition} {sector : BitVec 64}

theorem Flushed.coherent (h : Flushed i d d') (hc : Coherent (d.cache i) d.sectors view) :
    Coherent (d'.cache i) d'.sectors view := by
  obtain ⟨l, hcache, hl⟩ := h.cache
  refine ⟨h.distinct hc.distinct, ?_, ?_⟩
  · intro k s hk
    rw [hcache] at hk ⊢
    rw [markCopies_data]
    refine hc.data k s ⟨by simpa [Slot] using hk.slot, by simpa using hk.sector, ?_⟩
    have hused := hk.used
    rw [markCopies_status] at hused
    split_ifs at hused with hmem
    · rw [hl k hmem]
      decide
    · exact hused
  · intro s _
    by_cases hs : Modified (d.cache i) s
    · obtain ⟨k, hk⟩ := hs
      rw [h.saved k s hk]
      exact hc.data k s hk.holds
    · rw [h.same s hs]
      exact hc.disk s hs

theorem Coherent.claim (hc : Coherent c sectors view) (hstatus : (c.item k).status ≠ .modified) :
    Coherent (c.claim k s) sectors view := by
  refine ⟨claim_distinct hc.distinct k s, ?_, ?_⟩
  · intro j t hj
    obtain ⟨hjk, hj⟩ := claim_holds.mp hj
    rw [← hc.data j t hj]
    simp [Cache.claim, hjk]
  · intro t ht
    refine hc.disk t fun hmod => ht (hmod.imp fun j hj => claim_dirty.mpr ⟨?_, hj⟩)
    rintro rfl
    exact hstatus hj.status

theorem Coherent.fill_modified (hc : Coherent c sectors view) (hready : Ready c k s) (x : α) :
    Coherent (c.fill k .modified x) sectors (update view s x) := by
  refine ⟨fill_distinct (by decide) hready hc.distinct, ?_, ?_⟩
  · intro j t hj
    rcases (fill_holds (by decide) hready).mp hj with ⟨rfl, rfl⟩ | ⟨hjk, hj⟩
    · simp [Cache.fill]
    · have hts : t ≠ s := by
        rintro rfl
        exact hjk (hready.unique j hj)
      rw [fill_item_of_ne hjk, update_of_ne hts, hc.data j t hj]
  intro t ht
  have hts : t ≠ s := by
    rintro rfl
    exact ht ⟨k, hready.slot, by simp [Cache.fill, hready.sector], by simp [Cache.fill]⟩
  rw [update_of_ne hts]
  refine hc.disk t fun hmod => ht (hmod.imp fun j hj => ?_)
  have hjk : j ≠ k := by
    rintro rfl
    exact hts (hj.sector.symm.trans hready.sector)
  exact (fill_dirty hjk).mpr hj

theorem Coherent.fill_copy (hc : Coherent c sectors view) (hready : Ready c k s)
    (hstatus : (c.item k).status ≠ .modified) : Coherent (c.fill k .copy (view s)) sectors view := by
  refine ⟨fill_distinct (by decide) hready hc.distinct, ?_, ?_⟩
  · intro j t hj
    rcases (fill_holds (by decide) hready).mp hj with ⟨rfl, rfl⟩ | ⟨hjk, hj⟩
    · simp [Cache.fill]
    · rw [fill_item_of_ne hjk, hc.data j t hj]
  intro t ht
  refine hc.disk t fun hmod => ht (hmod.imp fun j hj => ?_)
  have hjk : j ≠ k := by
    rintro rfl
    exact hstatus hj.status
  exact (fill_dirty hjk).mpr hj

theorem Locates.coherent (h : Locates i s d d' r) (hc : Coherent (d.cache i) d.sectors view) :
    Coherent (d'.cache i) d'.sectors view := by
  cases h with
  | found hk => exact hc
  | free habsent hk hstatus =>
    rw [setCache_self]
    exact hc.claim hstatus
  | @flushed k d' edx habsent hfull hflushed hk =>
    rw [setCache_self]
    exact (hflushed.coherent hc).claim fun hmod => hflushed.clean _ ⟨k, hflushed.slot.mpr hk, rfl, hmod⟩

theorem Locates.others (h : Locates i s d d' r) (hj : j ≠ r.slot) :
    ((d'.cache i).item j).sector = ((d.cache i).item j).sector ∧
      (((d'.cache i).item j).status = .empty → ((d.cache i).item j).status = .empty) ∧
      (((d'.cache i).item j).status = .modified → ((d.cache i).item j).status = .modified) := by
  cases h with
  | found hk => exact ⟨rfl, id, id⟩
  | free habsent hk hstatus =>
    rw [setCache_self]
    simp [Cache.claim, hj]
  | flushed habsent hfull hflushed hk =>
    obtain ⟨l, hcache, -⟩ := hflushed.cache
    rw [setCache_self, hcache]
    simp only [Cache.claim, update_of_ne hj, markCopies_sector, true_and]
    refine ⟨fun hempty => ?_, fun hmod => (markCopies_modified hmod).2⟩
    rw [markCopies_status] at hempty
    split_ifs at hempty
    exact hempty

/-! ## The invariant -/

structure Transparent (w : World) (i : Which) (view : BitVec 64 → α) (d : Disk α) : Prop where
  works : NeverFails w d
  pointer : (d.cache i).pointer = true
  coherent : Coherent (d.cache i) d.sectors view
  other : ∀ k, ((d.cache i.other).item k).status = .empty
  empty : ∀ k, ((d.cache i).item k).status = .empty → ((d.cache i).item k).sector = 0
  inside : ∀ s, Modified (d.cache i) s → s.toNat < d.capacity.toNat

theorem Transparent.noStale (h : Transparent w i view d) : NoStale (d.cache i) := by
  intro k hk hk1 hmod hempty hnext
  have hlast := h.inside _ ⟨k, ⟨hk1, by omega⟩, rfl, hmod⟩
  rw [h.empty (k + 1) hempty] at hnext
  bv_omega

theorem Transparent.canLocate (h : Transparent w i view d) (s : BitVec 64) : CanLocate w i s d :=
  ⟨h.works.writes, h.pointer, h.coherent.distinct, fun _ _ => h.noStale⟩

theorem NeverFails.change (h : NeverFails w d) (hlog : (d'.cache i).sectorSizeLog = (d.cache i).sectorSizeLog)
    (hother : d'.cache i.other = d.cache i.other) (hcapacity : d'.capacity = d.capacity) :
    NeverFails w d' where
  writes := ⟨h.writes.write, forall_which i (by simpa only [hlog] using h.writes.buffer i)
    (by simpa only [hother] using h.writes.buffer i.other)⟩
  alloc := h.alloc
  read := by rw [hcapacity]; exact h.read
  first := by rw [hcapacity]; exact h.first

theorem Transparent.set_time (h : Transparent w i view d) (time : Nat) : Transparent w i view { d with time } :=
  ⟨h.works.change (i := i) rfl rfl rfl, h.pointer, h.coherent, h.other, h.empty, h.inside⟩

/-! ## Storing -/

theorem Locates.stored_transparent (hl : Locates i s d d' r) (h : Transparent w i view d)
    (hx : ((d'.cache i).item r.slot).status ≠ .modified → x = view s) : Transparent w i view (stored d' i r x) := by
  have hshrinks := hl.stored_shrinks x
  obtain ⟨hready, -⟩ := hl.ready h.coherent.distinct
  obtain ⟨hother, hcapacity⟩ := hl.stored_frame x
  refine ⟨h.works.change hshrinks.sectorSizeLog hother hcapacity, hshrinks.pointer.trans h.pointer, ?_,
    by rw [hother]; exact h.other, ?_, ?_⟩
  · unfold stored
    split_ifs with hmod
    · exact hl.coherent h.coherent
    · rw [setCache_self, hx hmod]
      exact (hl.coherent h.coherent).fill_copy hready hmod
  · intro k hk
    rw [(hshrinks.empty k hk).2]
    exact h.empty k (hshrinks.empty k hk).1
  · intro t ht
    rw [hcapacity]
    exact h.inside t (hshrinks.modified ht)

theorem Locates.stored_modified (hl : Locates i s d d' r) (hroomy : Roomy (d.cache i)) (x : α) {t : BitVec 64}
    (ht : Modified (d.cache i) t) : Modified ((stored d' i r x).cache i) t := by
  obtain ⟨j, hj⟩ := ht
  unfold stored
  cases hl with
  | @found k hk =>
    split_ifs with hmod
    · exact ⟨j, hj⟩
    · rw [setCache_self]
      have hjk : j ≠ k := fun h => hmod (h ▸ hj.status)
      exact ⟨j, (fill_dirty hjk).mpr hj⟩
  | @free k habsent hk hstatus =>
    rw [if_neg (by simp [Cache.claim]), setCache_self, setCache_self]
    have hjk : j ≠ k := fun h => hstatus (h ▸ hj.status)
    exact ⟨j, (fill_dirty hjk).mpr (claim_dirty.mpr ⟨hjk, hj⟩)⟩
  | flushed habsent hfull hflushed hk => exact absurd hfull (hroomy.search _)

theorem Locates.not_modified (hl : Locates i s d d' r) (hc : Distinct (d.cache i))
    (hstatus : ((d'.cache i).item r.slot).status ≠ .modified) : ¬ Modified (d.cache i) s := by
  rintro ⟨j, hj⟩
  cases hl with
  | found hk => exact hstatus (hc _ _ _ hj.holds hk ▸ hj.status)
  | free habsent hk _ => exact habsent ⟨j, hj.holds⟩
  | flushed habsent hfull hflushed hk => exact habsent ⟨j, hj.holds⟩

def Fresh (view : BitVec 64 → α) (c : Cache α) (s : BitVec 64) (xs : List α) : Prop :=
  ∀ tx ∈ numbered s xs, tx.2 = view tx.1 ∨ (Roomy c ∧ Modified c tx.1)

theorem store_to_cache_transparent (h : Transparent w i view d) (xs : List α)
    (hfresh : Fresh view (d.cache i) s xs) :
    ∃ d' ys, storeToCache w i s xs d = some (d', s + BitVec.ofNat 64 xs.length, ys) ∧
      ys.length = xs.length ∧ Delivers (fun s y => y = view s) s ys ∧ Transparent w i view d' ∧
      Shrinks (d.cache i) (d'.cache i) ∧ d'.capacity = d.capacity := by
  obtain ⟨d', ys, hrun, hlen, hys, ⟨hd', -, hshrinks, hcapacity⟩⟩ := store_to_cache_rule
    (P := fun s xs e => Transparent w i view e ∧ Fresh view (e.cache i) s xs ∧
      Shrinks (d.cache i) (e.cache i) ∧ e.capacity = d.capacity)
    (Q := fun s y => y = view s) (fun s _ _ e hP => hP.1.canLocate s)
    (by
      rintro s x xs e e' r ⟨he, hfresh, hshrinks, hcapacity⟩ hl
      have hx : ((e'.cache i).item r.slot).status ≠ .modified → x = view s := by
        intro hstatus
        rcases hfresh (s, x) mem_cons_self with hx | ⟨-, hmod⟩
        · exact hx
        · exact absurd hmod (hl.not_modified he.coherent.distinct hstatus)
      refine ⟨⟨hl.stored_transparent he hx, ?_, hshrinks.trans (hl.stored_shrinks x),
        (hl.stored_frame x).2.trans hcapacity⟩, ?_⟩
      · intro tx htx
        rcases hfresh tx (mem_cons_of_mem _ htx) with hright | ⟨hroomy, hmod⟩
        · exact .inl hright
        · exact .inr ⟨(hl.stored_shrinks x).roomy hroomy, hl.stored_modified hroomy x hmod⟩
      unfold delivered
      split_ifs with hstatus
      · obtain ⟨hready, -⟩ := hl.ready he.coherent.distinct
        exact (hl.coherent he.coherent).data _ _
          ⟨hready.slot, hready.sector, by rw [hstatus]; decide⟩
      · exact hx hstatus)
    xs ⟨h, hfresh, .refl _, rfl⟩
  exact ⟨d', ys, hrun, hlen, hys, hd', hshrinks, hcapacity⟩

theorem mem_numbered_read {sectors : BitVec 64 → α} {tx : BitVec 64 × α}
    (h : tx ∈ numbered s (readSectors sectors s n)) : tx.1 ∈ stretch s n ∧ tx.2 = sectors tx.1 := by
  induction n generalizing s with
  | zero => simp [readSectors, numbered] at h
  | succ n ih =>
    rw [readSectors, numbered, mem_cons] at h
    rcases h with rfl | h
    · exact ⟨by simp, rfl⟩
    · exact ⟨mem_cons_of_mem _ (ih h).1, (ih h).2⟩

theorem Transparent.fresh (h : Transparent w i view d) {m : Nat} (hnm : n ≤ m)
    (hquiet : (∀ t ∈ stretch s m, ¬ Modified (d.cache i) t) ∨ Roomy (d.cache i)) :
    Fresh view (d.cache i) s (readSectors d.sectors s n) := by
  intro tx htx
  obtain ⟨hmem, heq⟩ := mem_numbered_read htx
  by_cases hmod : Modified (d.cache i) tx.1
  · rcases hquiet with hnone | hroomy
    · exact absurd hmod (hnone _ (mem_stretch_mono hnm hmem))
    · exact .inr ⟨hroomy, hmod⟩
  · exact .inl (heq.trans (h.coherent.disk _ hmod))

theorem lookup_modified_none (hc : Distinct c) (h : lookupModified c s = none) : ¬ Modified c s := by
  rintro ⟨k, hk⟩
  obtain ⟨j, hl, hj⟩ := Present.lookup ⟨k, hk.holds⟩
  rw [lookupModified, hl, filter_some, if_pos] at h
  · cases h
  · simpa [hc j k s hj hk.holds] using hk.status

theorem Undisturbed.quiet {l : List (BitVec 64)} (h : Undisturbed c l) (hc : Distinct c) :
    (∀ t ∈ l, ¬ Modified c t) ∨ Roomy c :=
  h.imp (fun h t ht => lookup_modified_none hc (h t ht)) id

/-! ## Requests -/

theorem read_loop_transparent (h : Transparent w i view d) (n iterationSize : Nat) (error : BitVec 32)
    (hn : 0 < n) (hiter : 0 < iterationSize) (hinside : s.toNat + n ≤ d.capacity.toNat)
    (hquiet : (∀ t ∈ stretch s n, ¬ Modified (d.cache i) t) ∨ Roomy (d.cache i)) :
    ∃ d' ys, readLoop w i n iterationSize s n error d = some (d', error, 0, ys) ∧ ys.length = n ∧
      Delivers (fun s y => y = view s) s ys ∧ Transparent w i view d' ∧ d'.capacity = d.capacity := by
  obtain ⟨d', error', left, ys, hrun, ⟨hd', hcapacity⟩, hys, hall⟩ := read_loop_rule (w := w) (i := i)
    (P := fun s n e => Transparent w i view e ∧ e.capacity = d.capacity ∧ s.toNat + n ≤ d.capacity.toNat ∧
      ((∀ t ∈ stretch s n, ¬ Modified (e.cache i) t) ∨ Roomy (e.cache i)))
    (Q := fun s y => y = view s) (I := fun e => Transparent w i view e ∧ e.capacity = d.capacity)
    (by
      rintro s n num e hn0 hn ⟨he, hcap, hin, hq⟩
      have hread : w.read e.time s n = none := he.works.read _ _ _ (by rw [hcap]; omega)
      have hdone : sectorsDone n (w.read e.time s n) = n := by rw [hread]; rfl
      rw [hdone]
      obtain ⟨e', ys, hstore, hlen, hys, he', hshrinks, hcap'⟩ := store_to_cache_transparent
        (he.set_time (e.time + 1)) (readSectors e.sectors s n) (he.fresh hn hq)
      rw [length_readSectors] at hstore hlen
      refine ⟨e', ys, hstore, hlen, hys, ⟨he', hcap'.trans hcap⟩, he', hcap'.trans hcap, ?_, ?_⟩
      · have := d.capacity.isLt
        rw [BitVec.toNat_add, BitVec.toNat_ofNat]
        omega
      · refine hq.imp (fun hnone t ht hmod => hnone t ?_ (hshrinks.modified hmod)) hshrinks.roomy
        rw [show num = n + (num - n) by omega, stretch_append]
        exact mem_append_right _ ht)
    n iterationSize n error hn le_rfl hiter ⟨h, rfl, hinside, hquiet⟩
  obtain ⟨rfl, rfl, hlen⟩ := hall (by
    rintro t s n e ⟨he, hcap, hin, -⟩ m hm
    exact he.works.read _ _ _ (by rw [hcap]; omega))
  exact ⟨d', ys, hrun, hlen, hys, hd', hcapacity⟩

theorem lookup_loop_spec (hc : Coherent c sectors view) (s : BitVec 64) (n : Nat) :
    Delivers (fun s y => y = view s) s (lookupLoop c s n) ∧ (lookupLoop c s n).length ≤ n ∧
      (stretch s n).dropWhile (fun t => (cacheLookupRead c t).isSome) =
        stretch (s + BitVec.ofNat 64 (lookupLoop c s n).length) (n - (lookupLoop c s n).length) := by
  induction n generalizing s with
  | zero => simp [lookupLoop, Delivers]
  | succ n ih =>
    rw [lookupLoop]
    cases hl : cacheLookupRead c s with
    | none => simp [Delivers, hl]
    | some k =>
      obtain ⟨hys, hlen, hdrop⟩ := ih (s + 1)
      refine ⟨⟨hc.data k s (cache_lookup_read_some hl), hys⟩, by simp only [length_cons]; omega, ?_⟩
      rw [stretch_succ, dropWhile_cons_of_pos (by simp [hl]), hdrop, length_cons,
        add_one_add_ofNat, Nat.add_sub_add_right]

theorem fitPartition_inside (h : sector.toNat + n ≤ p.length.toNat) :
    ¬ p.length < sector ∧ fitPartition p sector n = (n, statusOk) := by
  have hle : ¬ p.length < sector := by bv_omega
  refine ⟨hle, ?_⟩
  rw [fitPartition, if_pos]
  bv_omega

theorem toNat_start {p : Partition} {sector capacity : BitVec 64} {n : Nat}
    (hp : p.firstSector.toNat + p.length.toNat ≤ capacity.toNat) (h : sector.toNat + n ≤ p.length.toNat) :
    (p.firstSector + sector).toNat + n ≤ capacity.toNat := by
  rw [BitVec.toNat_add]
  omega

theorem fs_read64_transparent (h : Transparent w i view d)
    (hin : Inside i d.capacity (.read64 i p sector n : Request α)) (hmeets : ReadMeets d (.read64 i p sector n)) :
    ∃ d', fsRead64 w i p sector n d = some (d', answer view (.read64 i p sector n)) ∧
      Transparent w i view d' ∧ d'.capacity = d.capacity := by
  obtain ⟨-, hp, hsector⟩ := hin
  obtain ⟨hbeyond, hfit⟩ := fitPartition_inside hsector
  have hstart := toNat_start hp hsector
  simp only [ReadMeets] at hmeets
  simp only [fsRead64, if_neg hbeyond, hfit, answer]
  generalize p.firstSector + sector = start at hmeets hstart ⊢
  split
  · next hzero => exact ⟨d, by rw [hzero]; rfl, h, rfl⟩
  rw [if_pos h.pointer]
  obtain ⟨hxs, hlen, hdrop⟩ := lookup_loop_spec h.coherent start n
  rw [hdrop] at hmeets
  generalize lookupLoop (d.cache i) start n = xs at hmeets hxs hlen ⊢
  split
  · next hleft =>
    have hall : xs.length = n := by omega
    exact ⟨d, by rw [hxs.eq_read, hall], h, rfl⟩
  next hleft =>
  cases hm : tempBuffer w d.time (d.cache i).sectorSizeLog (n - xs.length) with
  | none => exact absurd hm (h.works.writes.buffer _ _ _)
  | some m =>
    obtain ⟨d', ys, hrun, hlen', hys, hd', hcapacity⟩ := read_loop_transparent (h.set_time (d.time + 1))
      (s := start + BitVec.ofNat 64 xs.length) (n - xs.length) m statusOk (by omega)
      (temp_buffer_pos (by omega) hm) (by
        rw [BitVec.toNat_add, BitVec.toNat_ofNat]
        simp only
        omega) (hmeets.quiet h.coherent.distinct)
    simp only [hrun, bind_eq_bind, bind_some]
    have hread : xs ++ ys = readSectors view start n := by
      have := (hxs.append hys).eq_read
      rwa [length_append, hlen', show xs.length + (n - xs.length) = n by omega] at this
    exact ⟨d', by rw [hread, Nat.sub_zero], hd', hcapacity⟩

/-- With no flush `edx` is still the high half of the sector. -/
theorem floppy_transparent (h : Transparent w i view d) (habsent : ¬ Present (d.cache i) s)
    (hstart : s.toNat < d.capacity.toNat)
    (hfree : searchForEmpty (d.cache i) (searchWindow (d.cache i)) (d.cache i).searchStart ≠ none) :
    ∃ d', floppy w i s d = some (d', ⟨statusOk, 1, [view s]⟩) ∧ Transparent w i view d' ∧
      d'.capacity = d.capacity := by
  obtain ⟨hw, hpointer, hdistinct, hcalm⟩ := h.canLocate s
  obtain ⟨d1, r, hlookup, hlocates⟩ := cache_lookup_write_spec hw hpointer hdistinct hcalm
  have hdisk : d.sectors s = view s := h.coherent.disk s fun hmod => habsent hmod.present
  have hstored := hlocates.stored_transparent h (x := view s) fun _ => rfl
  have hcapacity := (hlocates.stored_frame (view s)).2
  simp only [floppy, hlookup, bind_eq_bind, bind_some]
  cases hlocates with
  | found hk => exact absurd ⟨_, hk⟩ habsent
  | flushed _ hfull => exact absurd hfull hfree
  | @free k _ hk hstatus =>
    have hsector : s.extractLsb' 32 32 ++ s.setWidth 32 = s := by
      ext j hj
      simp only [BitVec.getElem_append, BitVec.getElem_setWidth, BitVec.getElem_extractLsb']
      split
      · exact BitVec.getLsbD_eq_getElem hj
      · rw [show 32 + (j - 32) = j by omega]
        exact BitVec.getLsbD_eq_getElem hj
    have hread : w.read d.time s 1 = none := h.works.read _ _ _ (by omega)
    have hempty : stored (d.setCache i ((d.cache i).claim k s)) i ⟨k, s.extractLsb' 32 32⟩ (view s) =
        (d.setCache i ((d.cache i).claim k s)).setCache i (((d.cache i).claim k s).fill k .copy (view s)) := by
      rw [stored, if_neg (by simp [Cache.claim]), setCache_self]
    rw [hempty] at hstored hcapacity
    refine ⟨_, ?_, hstored.set_time (d.time + 1), hcapacity⟩
    simp only [hsector]
    have hdone : sectorsDone 1 (none : Option Failure) = 1 := rfl
    rw [show (d.setCache i ((d.cache i).claim k s)).time = d.time from rfl, hread, if_pos hdone,
      setCache_self, setCache_sectors, hdisk]
    rfl

theorem prefetch_transparent (h : Transparent w i view d) (habsent : ¬ Present (d.cache i) s)
    (hstart : s.toNat < d.capacity.toNat)
    (hquiet : (∀ t ∈ stretch s cacheLegacyReadSize, ¬ Modified (d.cache i) t) ∨ Roomy (d.cache i)) :
    ∃ d', prefetch w i s d = some (d', ⟨statusOk, 1, [view s]⟩) ∧ Transparent w i view d' ∧
      d'.capacity = d.capacity := by
  have hdisk : d.sectors s = view s := h.coherent.disk s fun hmod => habsent hmod.present
  simp only [prefetch, if_pos (h.works.alloc d.time), length_readSectors]
  have hfirst := h.works.first (d.time + 1) s cacheLegacyReadSize hstart (by decide)
  have hle : sectorsDone cacheLegacyReadSize (w.read (d.time + 1) s cacheLegacyReadSize) ≤ cacheLegacyReadSize := by
    cases w.read (d.time + 1) s cacheLegacyReadSize with
    | none => exact le_rfl
    | some e => exact Nat.min_le_right ..
  generalize sectorsDone cacheLegacyReadSize (w.read (d.time + 1) s cacheLegacyReadSize) = got at hfirst hle ⊢
  obtain ⟨d', ys, hstore, -, -, hd', -, hcapacity⟩ := store_to_cache_transparent (h.set_time (d.time + 2))
    (readSectors d.sectors s got) (h.fresh hle hquiet)
  rw [if_neg hfirst.ne']
  simp only [hstore, bind_eq_bind, bind_some]
  obtain ⟨n, rfl⟩ := Nat.exists_eq_succ_of_ne_zero hfirst.ne'
  refine ⟨d', ?_, hd', hcapacity⟩
  simp [readSectors, hdisk]

theorem fs_read32_transparent (h : Transparent w i view d) {sector : BitVec 32}
    (hin : Inside i d.capacity (.read32 i p sector : Request α)) (hmeets : ReadMeets d (.read32 i p sector)) :
    ∃ d', fsRead32 w i p sector d = some (d', answer view (.read32 i p sector)) ∧
      Transparent w i view d' ∧ d'.capacity = d.capacity := by
  obtain ⟨-, hp, hsector⟩ := hin
  have hstart : (p.firstSector + sector.setWidth 64).toNat < d.capacity.toNat := by
    have := @toNat_start p (sector.setWidth 64) d.capacity 1 hp (by
      rw [BitVec.toNat_setWidth_of_le (by decide)]
      omega)
    omega
  simp only [ReadMeets] at hmeets
  simp only [fsRead32, if_neg (Nat.not_le.mpr hsector), if_pos h.pointer, answer]
  generalize p.firstSector + sector.setWidth 64 = start at hmeets hstart ⊢
  cases hl : cacheLookupRead (d.cache i) start with
  | some k =>
    refine ⟨d, ?_, h, rfl⟩
    simp [h.coherent.data k start (cache_lookup_read_some hl)]
  | none =>
    have habsent := cache_lookup_read_none.mp hl
    specialize hmeets hl
    split_ifs at hmeets ⊢ with hfloppy
    · exact floppy_transparent h habsent hstart hmeets
    · exact prefetch_transparent h habsent hstart (hmeets.quiet h.coherent.distinct)

theorem WritesSector.transparent (hs : WritesSector i s x d d') (h : Transparent w i view d)
    (hinside : s.toNat < d.capacity.toNat) : Transparent w i (update view s x) d' := by
  obtain ⟨⟨d1, r, hl, hcache, hsectors⟩, hother, hcapacity⟩ := hs
  obtain ⟨hready, -⟩ := hl.ready h.coherent.distinct
  have hother' : d'.cache i.other = d.cache i.other := by
    generalize d'.cache i.other = c at hother
    cases hother with
    | absent => rfl
    | dropped hk => exact absurd (h.other _) hk.used
  refine ⟨h.works.change (i := i) ?_ hother' hcapacity, ?_, ?_, by rw [hother']; exact h.other, ?_, ?_⟩
  · rw [hcache]
    exact hl.frame.2.2.2.2
  · rw [hcache]
    exact hl.frame.2.2.2.1.trans h.pointer
  · rw [hcache, hsectors]
    exact (hl.coherent h.coherent).fill_modified hready x
  · intro k hk
    rw [hcache] at hk ⊢
    by_cases hslot : k = r.slot
    · simp [Cache.fill, hslot] at hk
    · obtain ⟨hsector, hempty, -⟩ := hl.others hslot
      simp only [Cache.fill, update_of_ne hslot] at hk ⊢
      rw [hsector]
      exact h.empty k (hempty hk)
  · rintro t ⟨k, hk⟩
    rw [hcache] at hk
    rw [hcapacity]
    by_cases hslot : k = r.slot
    · have : t = s := by
        have := hk.sector
        simp only [Cache.fill, hslot, update_self] at this
        exact this.symm.trans hready.sector
      rwa [this]
    obtain ⟨hsector, -, hmodified⟩ := hl.others hslot
    have hstatus := hk.status
    have hnumber := hk.sector
    simp only [Cache.fill, update_of_ne hslot] at hstatus hnumber
    refine h.inside t ⟨k, ?_, hsector.symm.trans hnumber, hmodified hstatus⟩
    simpa [Slot, hl.frame.2.2.1] using hk.slot

theorem fs_write64_transparent (h : Transparent w i view d) {buffer : List α}
    (hin : Inside i d.capacity (.write64 i p sector buffer)) :
    ∃ d', fsWrite64 w i p sector buffer d = some (d', answer view (.write64 i p sector buffer)) ∧
      Transparent w i (writeSectors view (p.firstSector + sector) buffer) d' ∧
      d'.capacity = d.capacity := by
  obtain ⟨-, hp, hsector⟩ := hin
  obtain ⟨hbeyond, hfit⟩ := fitPartition_inside hsector
  have hstart := toNat_start hp hsector
  simp only [fsWrite64, if_neg hbeyond, hfit, answer, take_length]
  generalize p.firstSector + sector = start at hstart ⊢
  split
  · next hzero =>
    obtain rfl := length_eq_zero_iff.mp hzero
    exact ⟨d, rfl, h, rfl⟩
  rw [if_pos h.pointer]
  obtain ⟨d', hrun, v, hd', hcapacity, hview, -⟩ := write_loop_rule (w := w) (i := i)
    (P := fun s xs e => ∃ v, Transparent w i v e ∧ e.capacity = d.capacity ∧
      writeSectors v s xs = writeSectors view start buffer ∧ s.toNat + xs.length ≤ d.capacity.toNat)
    (fun s x xs e hP => hP.choose_spec.1.canLocate s)
    (by
      rintro s x xs e e' ⟨v, he, hcap, hv, hroom⟩ - hspec
      simp only [length_cons] at hroom
      refine ⟨update v s x, hspec.transparent he (by rw [hcap]; omega), hspec.capacity.trans hcap, hv, ?_⟩
      rw [BitVec.toNat_add]
      simp only [BitVec.ofNat_eq_ofNat, BitVec.toNat_ofNat]
      omega)
    buffer ⟨view, h, rfl, rfl, hstart⟩
  simp only [hrun, bind_eq_bind, bind_some]
  refine ⟨d', rfl, ?_, hcapacity⟩
  rw [← hview]
  exact hd'

/-! ## Runs -/

theorem serve_transparent (h : Transparent w i view d) (r : Request α) (hin : Inside i d.capacity r)
    (hmeets : ReadMeets d r) :
    ∃ d', step w d r = (d', some (answer view r)) ∧ Transparent w i (contents view [r]) d' ∧
      d'.capacity = d.capacity := by
  have hserve : ∃ d', serve w d r = some (d', answer view r) ∧
      Transparent w i (contents view [r]) d' ∧ d'.capacity = d.capacity := by
    cases r with
    | write64 j p sector buffer =>
      obtain rfl : j = i := hin.1
      exact fs_write64_transparent h hin
    | read64 j p sector n =>
      obtain rfl : j = i := hin.1
      exact fs_read64_transparent h hin hmeets
    | read32 j p sector =>
      obtain rfl : j = i := hin.1
      exact fs_read32_transparent h hin hmeets
  obtain ⟨d', hserve, hd'⟩ := hserve
  exact ⟨d', by simp only [step, hserve], hd'⟩

theorem run_transparent (rs : List (Request α)) (h : Transparent w i view d)
    (hin : ∀ r ∈ rs, Inside i d.capacity r) (hmeets : Allowed (step w) ReadMeets d rs) :
    Transparent w i (contents view rs) (final (step w) d rs) ∧ (final (step w) d rs).capacity = d.capacity := by
  induction rs generalizing d view with
  | nil => exact ⟨h, rfl⟩
  | cons r rs ih =>
    obtain ⟨d', hstep, hd', hcapacity⟩ := serve_transparent h r (hin r mem_cons_self) hmeets.1
    have hrest := hmeets.2
    rw [hstep] at hrest
    rw [final_cons, hstep]
    obtain ⟨hfinal, hcapacity'⟩ := ih hd'
      (fun x hx => by rw [hcapacity]; exact hin x (mem_cons_of_mem _ hx)) hrest
    exact ⟨hfinal, hcapacity'.trans hcapacity⟩

theorem Blank.transparent (hblank : Blank d) (hw : NeverFails w d) (hpointer : (d.cache i).pointer = true) :
    Transparent w i d.sectors d := by
  refine ⟨hw, hpointer, ⟨fun j k s hj => absurd (hblank i j).1 hj.used,
    fun k s hk => absurd (hblank i k).1 hk.used, fun _ _ => rfl⟩, fun k => (hblank _ k).1,
    fun k _ => (hblank i k).2, ?_⟩
  rintro s ⟨k, hk⟩
  have := hk.status
  rw [(hblank i k).1] at this
  cases this

/-- The response to a request behind any run. -/
theorem disk_cache_transparent (w : World) (i : Which) (d : Disk α) (hblank : Blank d)
    (hpointer : (d.cache i).pointer = true) (hw : NeverFails w d) (rs : List (Request α)) (r : Request α)
    (hin : ∀ x ∈ rs ++ [r], Inside i d.capacity x)
    (hmeets : Allowed (step w) ReadMeets d (rs ++ [r])) :
    (step w (final (step w) d rs) r).2 = some (answer (contents d.sectors rs) r) := by
  obtain ⟨hrs, hr⟩ := allowed_append.mp hmeets
  obtain ⟨hfinal, hcapacity⟩ := run_transparent rs (hblank.transparent hw hpointer)
    (fun x hx => hin x (mem_append_left _ hx)) hrs
  obtain ⟨d', hstep, -⟩ := serve_transparent hfinal r
    (by rw [hcapacity]; exact hin r (mem_append_right _ mem_cons_self)) hr.1
  rw [hstep]

theorem workingDriver_neverFails : NeverFails workingDriver smallDisk where
  writes := workingDriver_writes
  alloc _ := rfl
  read _ _ _ _ := rfl
  first _ _ _ _ hn := hn

def mixedRequests : List (Request Nat) :=
  [.write64 .app wholeDisk 10 [100], .write64 .app wholeDisk 12 [120], .read32 .app wholeDisk 20]

theorem disk_cache_transparent_mixed :
    (step workingDriver (final (step workingDriver) smallDisk mixedRequests)
      (.read64 .app wholeDisk 10 2)).2 = some ⟨statusOk, 2, [100, 0]⟩ := by
  refine (disk_cache_transparent workingDriver .app smallDisk smallDisk_blank rfl workingDriver_neverFails
    mixedRequests (.read64 .app wholeDisk 10 2) ?_ (by decide +kernel)).trans ?_
  · simp only [mixedRequests, cons_append, nil_append, mem_cons, not_mem_nil, or_false,
      forall_eq_or_imp, forall_eq, Inside]
    decide +kernel
  · decide +kernel

def fullCache : List (Request Nat) :=
  [.write64 .app wholeDisk 11 [5], .write64 .app wholeDisk 20 [1, 2, 3, 4, 6, 7, 8]]

/-- The read of sectors 10 and 11 flushes for the first one, and gives old data of the second. -/
theorem disk_cache_reads_stale :
    ¬ ∀ (w : World) (i : Which) (d : Disk Nat), Blank d → (d.cache i).pointer = true →
      8 ≤ (d.cache i).sadSize → NeverFails w d → ∀ (rs : List (Request Nat)) (r : Request Nat),
        (∀ x ∈ rs ++ [r], Inside i d.capacity x) →
          (step w (final (step w) d rs) r).2 = some (answer (contents d.sectors rs) r) := by
  intro h
  have hread := h workingDriver .app smallDisk smallDisk_blank rfl (by decide) workingDriver_neverFails
    fullCache (.read64 .app wholeDisk 10 2) (by
      simp only [fullCache, cons_append, nil_append, mem_cons, not_mem_nil, or_false,
        forall_eq_or_imp, forall_eq, Inside]
      decide +kernel)
  have hbuffer := congrArg (Option.map Response.buffer) hread
  exact absurd hbuffer (by decide +kernel)

end Kolibri.DiskCache
