import Kolibri.DiskCache.Requests
import Kolibri.Lib.Run

/-! # Flushes in a run

A write through one cache leaves an empty item with the old number in the other.
-/

namespace Kolibri.DiskCache

open Stretch Run Function Option

variable {α : Type*} {w : World} {d : Disk α} {i : Which} {s : BitVec 64}

/-- As `disk_init_cache` leaves the items. -/
def Blank (d : Disk α) : Prop :=
  ∀ i k, ((d.cache i).item k).status = .empty ∧ ((d.cache i).item k).sector = 0

def numbered : BitVec 64 → List α → List (BitVec 64 × α)
  | _, [] => []
  | s, x :: xs => (s, x) :: numbered (s + 1) xs

def writeStep (w : World) (i : Which) (d : Disk α) (sx : BitVec 64 × α) : Disk α × Unit :=
  match writeSector w i d sx.1 sx.2 with
  | none => (d, ())
  | some (d, _) => (d, ())

/-- Whenever the request flushes its cache, there is nothing stale in it. -/
def Meets (w : World) (d : Disk α) : Request α → Prop
  | .write64 i p sector buffer =>
    Allowed (writeStep w i) (fun d sx => CalmFlush (d.cache i) sx.1) d
      (numbered (p.firstSector + sector) (buffer.take (fitPartition p sector buffer.length).1))
  | .read64 i _ _ _ | .read32 i _ _ => NoStale (d.cache i) ∨ Roomy (d.cache i)

instance decidableNotModified (c : Cache α) (s : BitVec 64) :
    Decidable (∀ j ≤ c.sadSize, 1 ≤ j → (c.item j).status = .modified → (c.item j).sector ≠ s) :=
  inferInstance

instance (c : Cache α) : Decidable (NoStale c) := Nat.decidableBallLT _ _

instance (c : Cache α) : Decidable (Roomy c) := inferInstanceAs (Decidable (∀ k ≤ _, _))

instance (c : Cache α) (s : BitVec 64) : Decidable (CalmFlush c s) :=
  inferInstanceAs (Decidable (_ → _ → NoStale c))

instance (w : World) (d : Disk α) : (r : Request α) → Decidable (Meets w d r)
  | .write64 .. => inferInstanceAs (Decidable (Allowed ..))
  | .read64 i .. | .read32 i .. => inferInstanceAs (Decidable (NoStale (d.cache i) ∨ Roomy (d.cache i)))

structure Sane (w : World) (d : Disk α) : Prop where
  writes : Writes w d
  distinct : ∀ i, Distinct (d.cache i)
  unused : ∀ i, (d.cache i).pointer = false → ∀ s, ¬ Modified (d.cache i) s

variable {d' : Disk α} {r : Located} {c : Cache α} {j k : Nat} {t : BitVec 64}

theorem Sane.of_cache_eq (h : Sane w d) (hcache : d'.cache = d.cache) : Sane w d' :=
  ⟨⟨h.writes.write, by simpa only [hcache] using h.writes.buffer⟩, by simpa only [hcache] using h.distinct,
    by simpa only [hcache] using h.unused⟩

theorem Sane.change (h : Sane w d) (hpointer : (d.cache i).pointer = true)
    (hpointer' : (d'.cache i).pointer = (d.cache i).pointer)
    (hlog : (d'.cache i).sectorSizeLog = (d.cache i).sectorSizeLog) (hdistinct : Distinct (d'.cache i))
    (hother : d'.cache i.other = d.cache i.other) : Sane w d' where
  writes := ⟨h.writes.write, forall_which i (by simpa only [hlog] using h.writes.buffer i)
    (by simpa only [hother] using h.writes.buffer i.other)⟩
  distinct := forall_which i hdistinct (by simpa only [hother] using h.distinct i.other)
  unused := by
    refine forall_which i (fun hfalse => ?_) (by simpa only [hother] using h.unused i.other)
    rw [hpointer', hpointer] at hfalse
    cases hfalse

theorem Locates.sane (h : Locates i s d d' r) (hd : Sane w d) (hpointer : (d.cache i).pointer = true) : Sane w d' :=
  hd.change hpointer h.frame.2.2.2.1 h.frame.2.2.2.2 (h.ready (hd.distinct i)).2 h.frame.1

theorem Locates.stored_sane (h : Locates i s d d' r) (hd : Sane w d) (hpointer : (d.cache i).pointer = true) (x : α) :
    Sane w (stored d' i r x) :=
  hd.change hpointer (h.stored_shrinks x).pointer (h.stored_shrinks x).sectorSizeLog
    (h.stored_distinct (hd.distinct i) x) (h.stored_frame x).1

/-! ## Reads -/

structure ReadInv (w : World) (i : Which) (d : Disk α) : Prop where
  sane : Sane w d
  pointer : (d.cache i).pointer = true
  steady : NoStale (d.cache i) ∨ Roomy (d.cache i)

theorem ReadInv.calm (h : ReadInv w i d) (s : BitVec 64) : CalmFlush (d.cache i) s := by
  intro _ hfull
  rcases h.steady with hstale | hroomy
  · exact hstale
  · exact absurd hfull (hroomy.search _)

theorem ReadInv.canLocate (h : ReadInv w i d) (s : BitVec 64) : CanLocate w i s d :=
  ⟨h.sane.writes, h.pointer, h.sane.distinct i, h.calm s⟩

theorem ReadInv.set_time (h : ReadInv w i d) (t : Nat) : ReadInv w i { d with time := t } :=
  ⟨h.sane.of_cache_eq rfl, h.pointer, h.steady⟩

theorem ReadInv.stored (h : ReadInv w i d) (hl : Locates i s d d' r) (x : α) :
    ReadInv w i (stored d' i r x) where
  sane := hl.stored_sane h.sane h.pointer x
  pointer := (hl.stored_shrinks x).pointer.trans h.pointer
  steady := h.steady.imp (hl.stored_shrinks x).noStale (hl.stored_shrinks x).roomy

theorem store_to_cache_sane (h : ReadInv w i d) (s : BitVec 64) (xs : List α) :
    ∃ d' ys, storeToCache w i s xs d = some (d', s + BitVec.ofNat 64 xs.length, ys) ∧
      ys.length = xs.length ∧ ReadInv w i d' := by
  obtain ⟨d', ys, hrun, hlen, -, hinv⟩ := store_to_cache_rule (P := fun _ _ d => ReadInv w i d)
    (Q := fun _ _ => True) (fun s _ _ d hd => hd.canLocate s)
    (fun s x xs d d' r hd hl => ⟨hd.stored hl x, trivial⟩) xs h
  exact ⟨d', ys, hrun, hlen, hinv⟩

theorem delivers_true (s : BitVec 64) (ys : List α) : Delivers (fun _ _ => True) s ys := by
  induction ys generalizing s with
  | nil => trivial
  | cons y ys ih => exact ⟨trivial, ih _⟩

theorem read_loop_sane (h : ReadInv w i d) (s : BitVec 64) (iterationSize n : Nat) (error : BitVec 32)
    (hn : 0 < n) (hiter : 0 < iterationSize) :
    ∃ d' error' left ys, readLoop w i n iterationSize s n error d = some (d', error', left, ys) ∧ Sane w d' := by
  obtain ⟨d', error', left, ys, hrun, hsane, -⟩ := read_loop_rule (w := w) (i := i)
    (P := fun _ _ d => ReadInv w i d) (Q := fun _ _ => True) (I := fun d => Sane w d)
    (by
      intro s n numSectors d _ _ hd
      obtain ⟨d', ys, hstore, hlen, hinv⟩ := store_to_cache_sane
        (hd.set_time (d.time + 1)) s
        (readSectors d.sectors s (sectorsDone n (w.read d.time s n)))
      rw [length_readSectors] at hstore hlen
      exact ⟨d', ys, hstore, hlen, delivers_true s ys, hinv.sane, hinv⟩)
    n iterationSize n error hn le_rfl hiter h
  exact ⟨d', error', left, ys, hrun, hsane⟩

theorem fs_read64_sane (h : Sane w d) (hmeets : NoStale (d.cache i) ∨ Roomy (d.cache i)) (p : Partition)
    (sector : BitVec 64) (n : Nat) :
    ∃ d' response, fsRead64 w i p sector n d = some (d', response) ∧ Sane w d' := by
  unfold fsRead64
  split
  · exact ⟨_, _, rfl, h⟩
  generalize fitPartition p sector n = fit
  obtain ⟨n, error⟩ := fit
  dsimp only
  split
  · exact ⟨_, _, rfl, h⟩
  split
  · next hpointer =>
    generalize hstart : p.firstSector + sector + BitVec.ofNat 64 _ = start
    generalize hleft : n - (lookupLoop (d.cache i) (p.firstSector + sector) n).length = left
    split
    · exact ⟨_, _, rfl, h⟩
    next hpos =>
    cases hm : tempBuffer w d.time (d.cache i).sectorSizeLog left with
    | none => exact ⟨_, _, rfl, h.of_cache_eq rfl⟩
    | some m =>
      obtain ⟨d', error', left', ys, hrun, hsane⟩ := read_loop_sane
        (ReadInv.set_time ⟨h, hpointer, hmeets⟩ (d.time + 1)) start m
        left error (Nat.pos_of_ne_zero hpos) (temp_buffer_pos (Nat.pos_of_ne_zero hpos) hm)
      simp only [hrun, bind_eq_bind, bind_some]
      exact ⟨_, _, rfl, hsane⟩
  · exact ⟨_, _, rfl, h.of_cache_eq rfl⟩

theorem prefetch_sane (h : ReadInv w i d) (s : BitVec 64) :
    ∃ d' response, prefetch w i s d = some (d', response) ∧ Sane w d' := by
  unfold prefetch
  split
  · dsimp only
    split
    · exact ⟨_, _, rfl, h.sane.of_cache_eq rfl⟩
    obtain ⟨d', ys, hstore, -, hinv⟩ := store_to_cache_sane
      (h.set_time (d.time + 2)) s
      (readSectors d.sectors s (sectorsDone cacheLegacyReadSize (w.read (d.time + 1) s cacheLegacyReadSize)))
    simp only [hstore, bind_eq_bind, bind_some]
    exact ⟨_, _, rfl, hinv.sane⟩
  · exact ⟨_, _, rfl, h.sane.of_cache_eq rfl⟩

theorem floppy_sane (h : ReadInv w i d) (s : BitVec 64) :
    ∃ d' response, floppy w i s d = some (d', response) ∧ Sane w d' := by
  obtain ⟨hw, hpointer, hdistinct, hcalm⟩ := h.canLocate s
  obtain ⟨d1, r, hlookup, hlocates⟩ := cache_lookup_write_spec hw hpointer hdistinct hcalm
  have hsane := hlocates.sane h.sane h.pointer
  obtain ⟨hready, hdistinct1⟩ := hlocates.ready (h.sane.distinct i)
  simp only [floppy, hlookup, bind_eq_bind, bind_some]
  split_ifs
  · refine ⟨_, _, rfl, hsane.change (i := i) (hlocates.frame.2.2.2.1.trans h.pointer) ?_ ?_ ?_ ?_⟩
    · rw [setCache_self]; rfl
    · rw [setCache_self]; rfl
    · rw [setCache_self]
      exact fill_distinct (by decide) hready hdistinct1
    · rw [setCache_other]
  · exact ⟨_, _, rfl, hsane.of_cache_eq rfl⟩

theorem fs_read32_sane (h : Sane w d) (hmeets : NoStale (d.cache i) ∨ Roomy (d.cache i)) (p : Partition)
    (sector : BitVec 32) :
    ∃ d' response, fsRead32 w i p sector d = some (d', response) ∧ Sane w d' := by
  unfold fsRead32
  split
  · exact ⟨_, _, rfl, h⟩
  dsimp only
  split
  · next hpointer =>
    have hinv : ReadInv w i d := ⟨h, hpointer, hmeets⟩
    split
    · exact ⟨_, _, rfl, h⟩
    · split
      · exact floppy_sane hinv _
      · exact prefetch_sane hinv _
  · exact ⟨_, _, rfl, h.of_cache_eq rfl⟩

/-! ## Writes -/

theorem setStatus_empty_holds (h : Holds (c.setStatus k .empty) j t) : Holds c j t := by
  refine ⟨h.slot, by simpa using h.sector, fun hempty => h.used ?_⟩
  rw [setStatus_status, hempty, ite_self]

theorem setStatus_empty_dirty (h : Dirty (c.setStatus k .empty) j t) : Dirty c j t := by
  refine ⟨h.slot, by simpa using h.sector, ?_⟩
  have := h.status
  rw [setStatus_status] at this
  split_ifs at this
  exact this

theorem WritesSector.sane {x : α} (h : WritesSector i s x d d') (hd : Sane w d)
    (hpointer : (d.cache i).pointer = true) : Sane w d' ∧ (d'.cache i).pointer = true := by
  obtain ⟨⟨d1, r, hlocates, hcache, -⟩, hother, -⟩ := h
  obtain ⟨hready, hdistinct⟩ := hlocates.ready (hd.distinct i)
  have hpointer' : (d'.cache i).pointer = true := by
    rw [hcache]
    exact hlocates.frame.2.2.2.1.trans hpointer
  have hlog : (d'.cache i).sectorSizeLog = (d.cache i).sectorSizeLog := by
    rw [hcache]
    exact hlocates.frame.2.2.2.2
  have hdistinct' : Distinct (d'.cache i) := by
    rw [hcache]
    exact fill_distinct (by decide) hready hdistinct
  refine ⟨?_, hpointer'⟩
  generalize ho : d'.cache i.other = c at hother
  have hsizes : c.sectorSizeLog = (d.cache i.other).sectorSizeLog ∧
      c.pointer = (d.cache i.other).pointer ∧ Distinct c ∧
      ∀ s, Modified c s → Modified (d.cache i.other) s := by
    cases hother with
    | absent => exact ⟨rfl, rfl, hd.distinct _, fun _ h => h⟩
    | dropped =>
      exact ⟨rfl, rfl, fun _ _ _ hj hk => hd.distinct _ _ _ _ (setStatus_empty_holds hj) (setStatus_empty_holds hk),
        fun _ h => h.imp fun _ => setStatus_empty_dirty⟩
  refine ⟨⟨hd.writes.write, ?_⟩, ?_, ?_⟩
  · exact forall_which i (by simpa only [hlog] using hd.writes.buffer i)
      (by simpa only [ho, hsizes.1] using hd.writes.buffer i.other)
  · exact forall_which i hdistinct' (by rw [ho]; exact hsizes.2.2.1)
  · refine forall_which i (fun hfalse => ?_) fun hfalse s hs => ?_
    · rw [hpointer'] at hfalse
      cases hfalse
    · rw [ho] at hfalse hs
      exact hd.unused i.other (hsizes.2.1 ▸ hfalse) s (hsizes.2.2.2 s hs)

theorem fs_write64_sane (h : Sane w d) (p : Partition) (sector : BitVec 64) (buffer : List α)
    (hmeets : Meets w d (.write64 i p sector buffer)) :
    ∃ d' response, fsWrite64 w i p sector buffer d = some (d', response) ∧ Sane w d' := by
  simp only [Meets] at hmeets
  unfold fsWrite64
  split
  · exact ⟨_, _, rfl, h⟩
  rcases hfit : fitPartition p sector buffer.length with ⟨n, error⟩
  rw [hfit] at hmeets
  dsimp only at hmeets ⊢
  split
  · exact ⟨_, _, rfl, h⟩
  split
  · next hpointer =>
    obtain ⟨d', hrun, hinv⟩ := write_loop_rule (w := w) (i := i)
      (P := fun s xs d => Sane w d ∧ (d.cache i).pointer = true ∧
        Allowed (writeStep w i) (fun d sx => CalmFlush (d.cache i) sx.1) d (numbered s xs))
      (fun s x xs d hP => ⟨hP.1.writes, hP.2.1, hP.1.distinct i, hP.2.2.1⟩)
      (by
        rintro s x xs d d' ⟨hsane, hpointer, hallowed⟩ hwrite hspec
        obtain ⟨hsane', hpointer'⟩ := hspec.sane hsane hpointer
        refine ⟨hsane', hpointer', ?_⟩
        simpa only [writeStep, hwrite] using hallowed.2)
      (buffer.take n) ⟨h, hpointer, hmeets⟩
    simp only [hrun, bind_eq_bind, bind_some]
    exact ⟨_, _, rfl, hinv.1⟩
  · exact ⟨_, _, rfl, h.of_cache_eq rfl⟩

/-! ## Runs -/

theorem step_sane (d : Disk α) (r : Request α) (h : Sane w d) (hmeets : Meets w d r) : Sane w (step w d r).1 := by
  have hserve : ∃ d' response, serve w d r = some (d', response) ∧ Sane w d' := by
    cases r with
    | write64 i p sector buffer => exact fs_write64_sane h p sector buffer hmeets
    | read64 i p sector n => exact fs_read64_sane h hmeets p sector n
    | read32 i p sector => exact fs_read32_sane h hmeets p sector
  obtain ⟨d', response, hserve, hsane⟩ := hserve
  simpa only [step, hserve] using hsane

theorem Blank.sane (hblank : Blank d) (hw : Writes w d) : Sane w d := by
  refine ⟨hw, fun i j k s hj => absurd (hblank i j).1 hj.used, fun i _ s hs => ?_⟩
  obtain ⟨k, hk⟩ := hs
  have := hk.status
  rw [(hblank i k).1] at this
  cases this

/-- A flush behind any run, of either cache. -/
theorem write_cache64_complete_in_runs (w : World) (d : Disk α) (hblank : Blank d) (hw : Writes w d)
    (rs : List (Request α)) (hmeets : Allowed (step w) (Meets w) d rs) (i : Which)
    (hi : NoStale ((final (step w) d rs).cache i)) :
    ∃ f, writeCache64 w ((final (step w) d rs).cache i) (final (step w) d rs).time = some (f, 0) ∧
      FlushComplete ((final (step w) d rs).cache i) (final (step w) d rs).sectors f := by
  have hsane : Sane w (final (step w) d rs) :=
    final_inv (fun d r h hr => step_sane d r h hr) (hblank.sane hw) hmeets
  generalize final (step w) d rs = e at hi hsane
  by_cases hpointer : (e.cache i).pointer = true
  · obtain ⟨f, l, hrun, hcomplete, -⟩ := write_cache64_complete hsane.writes.write hpointer
      (hsane.writes.buffer i) ⟨hsane.distinct i, hi⟩ e.time e.sectors
    exact ⟨f, hrun, hcomplete⟩
  · have hnone := hsane.unused i (by simpa using hpointer)
    refine ⟨⟨e.cache i, e.time, []⟩, by rw [writeCache64, if_neg hpointer]; rfl, hnone, ?_, by simp⟩
    exact fun k s hk => absurd ⟨k, hk⟩ (hnone s)

def workingDriver : World where
  pagesFree _ := 100
  kernelAlloc _ := true
  read _ _ _ := none
  write _ _ _ := none
  edx _ := 0

def blankCache (n : Nat) (hpos : 0 < n) (hlt : n < 2 ^ 32) : Cache Nat where
  pointer := true
  sadSize := n
  sadSize_pos := hpos
  sadSize_lt := hlt
  searchStart := 0
  sectorSizeLog := 9
  item _ := ⟨0, .empty, 0⟩

def smallDisk : Disk Nat where
  cache _ := blankCache 8 (by decide) (by decide)
  sectors _ := 0
  capacity := 100000
  time := 0

def wholeDisk : Partition := ⟨0, 100000⟩

theorem smallDisk_blank : Blank smallDisk := fun _ _ => ⟨rfl, rfl⟩

theorem workingDriver_writes : Writes workingDriver smallDisk := by
  refine ⟨fun _ _ _ => rfl, fun i t n h => ?_⟩
  simp [tempBuffer, workingDriver, smallDisk, blankCache, cacheMaxAllocPages] at h

def crossedWrites : List (Request Nat) :=
  [.write64 .sys wholeDisk 5 [50, 60], .read64 .app wholeDisk 5 1, .write64 .app wholeDisk 5 [51]]

theorem write_cache64_complete_crossed :
    Allowed (step workingDriver) (Meets workingDriver) smallDisk crossedWrites ∧
      ∃ f, writeCache64 workingDriver ((final (step workingDriver) smallDisk crossedWrites).cache .sys)
          (final (step workingDriver) smallDisk crossedWrites).time = some (f, 0) ∧
        FlushComplete ((final (step workingDriver) smallDisk crossedWrites).cache .sys)
          (final (step workingDriver) smallDisk crossedWrites).sectors f :=
  have hmeets : Allowed (step workingDriver) (Meets workingDriver) smallDisk crossedWrites := by
    decide +kernel
  ⟨hmeets, write_cache64_complete_in_runs workingDriver smallDisk smallDisk_blank workingDriver_writes
    crossedWrites hmeets .sys (by decide +kernel)⟩

/-- Sector 101 is written again to slot 1, and the old slot 8 comes behind that of sector 100. -/
def staleWrites : List (Request Nat) :=
  [.write64 .sys wholeDisk 1 [1], .write64 .sys wholeDisk 3 [3], .write64 .sys wholeDisk 5 [5],
    .write64 .sys wholeDisk 7 [7], .write64 .sys wholeDisk 9 [9], .write64 .sys wholeDisk 11 [11],
    .write64 .sys wholeDisk 100 [100, 101], .write64 .app wholeDisk 1 [1000],
    .write64 .app wholeDisk 101 [1001], .write64 .sys wholeDisk 101 [2001]]

theorem write_cache64_misses_modified :
    ¬ ∀ (w : World) (d : Disk Nat), Blank d → Writes w d → ∀ (rs : List (Request Nat)) (i : Which) (f : Flush Nat),
      writeCache64 w ((final (step w) d rs).cache i) (final (step w) d rs).time = some (f, 0) →
        FlushComplete ((final (step w) d rs).cache i) (final (step w) d rs).sectors f := by
  intro h
  have hrun : (writeCache64 workingDriver ((final (step workingDriver) smallDisk staleWrites).cache .sys)
      (final (step workingDriver) smallDisk staleWrites).time).map (fun r =>
        (r.2, r.1.cache.sadSize, (r.1.cache.item 1).status)) = some (0, 8, .modified) := by decide +kernel
  obtain ⟨⟨f, eax⟩, hf, heq⟩ := map_eq_some_iff.mp hrun
  simp only [Prod.mk.injEq] at heq
  obtain ⟨rfl, hsize, hstatus⟩ := heq
  refine (h workingDriver smallDisk smallDisk_blank workingDriver_writes staleWrites .sys f hf).clean _
    ⟨1, ⟨le_rfl, ?_⟩, rfl, hstatus⟩
  rw [hsize]
  decide

end Kolibri.DiskCache
