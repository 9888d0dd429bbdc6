import Kolibri.DiskCache.Code
import Kolibri.Lib.Stretch

/-! # Chains of modified sectors

The sectors of a chain are different, so it is no longer than the cache, and the searches stop.
-/

namespace Kolibri.DiskCache

open Stretch Function Nat List

variable {α : Type*} {c : Cache α} {k : Nat} {s : BitVec 64}

def Slot (c : Cache α) (k : Nat) : Prop := 1 ≤ k ∧ k ≤ c.sadSize

@[mk_iff] structure Holds (c : Cache α) (k : Nat) (s : BitVec 64) : Prop where
  slot : Slot c k
  sector : (c.item k).sector = s
  used : (c.item k).status ≠ .empty

@[mk_iff] structure Dirty (c : Cache α) (k : Nat) (s : BitVec 64) : Prop where
  slot : Slot c k
  sector : (c.item k).sector = s
  status : (c.item k).status = .modified

def Present (c : Cache α) (s : BitVec 64) : Prop := ∃ k, Holds c k s

def Modified (c : Cache α) (s : BitVec 64) : Prop := ∃ k, Dirty c k s

theorem holds_congr {c' : Cache α} (hsize : c'.sadSize = c.sadSize) (hitem : c'.item k = c.item k) :
    Holds c' k s ↔ Holds c k s := by
  rw [holds_iff, holds_iff, Slot, Slot, hsize, hitem]

theorem dirty_congr {c' : Cache α} (hsize : c'.sadSize = c.sadSize) (hitem : c'.item k = c.item k) :
    Dirty c' k s ↔ Dirty c k s := by
  rw [dirty_iff, dirty_iff, Slot, Slot, hsize, hitem]

theorem Dirty.holds (h : Dirty c k s) : Holds c k s :=
  ⟨h.slot, h.sector, by rw [h.status]; decide⟩

theorem Modified.present (h : Modified c s) : Present c s :=
  h.imp fun _ => Dirty.holds

theorem Modified.has_slot (h : Modified c s) : ∃ k, Slot c k ∧ (c.item k).sector = s :=
  h.imp fun _ hk => ⟨hk.slot, hk.sector⟩

theorem cache_lookup_read_some (h : cacheLookupRead c s = some k) : Holds c k s := by
  have hmem := mem_range'_1.mp (mem_of_find?_eq_some h)
  have hfound := List.find?_some h
  simp only [ne_eq, decide_eq_true_eq] at hfound
  exact ⟨⟨hmem.1, by omega⟩, hfound.2, hfound.1⟩

theorem cache_lookup_read_none : cacheLookupRead c s = none ↔ ¬ Present c s := by
  unfold cacheLookupRead
  rw [List.find?_eq_none]
  constructor
  · rintro h ⟨k, hk⟩
    exact h k (mem_range'_1.mpr ⟨hk.slot.1, by have := hk.slot.2; omega⟩) (by simp [hk.used, hk.sector])
  · intro h k hk hfound
    simp only [ne_eq, decide_eq_true_eq] at hfound
    have := mem_range'_1.mp hk
    exact h ⟨k, ⟨this.1, by omega⟩, hfound.2, hfound.1⟩

theorem Present.lookup (h : Present c s) : ∃ k, cacheLookupRead c s = some k ∧ Holds c k s := by
  cases hl : cacheLookupRead c s with
  | none => exact absurd h (cache_lookup_read_none.mp hl)
  | some k => exact ⟨k, rfl, cache_lookup_read_some hl⟩

theorem lookup_modified_some (h : lookupModified c s = some k) : Dirty c k s := by
  obtain ⟨hl, hstatus⟩ := Option.filter_eq_some_iff.mp h
  have hk := cache_lookup_read_some hl
  exact ⟨hk.slot, hk.sector, by simpa using hstatus⟩

theorem stretch_le_sadSize {lo : BitVec 64} {n : Nat}
    (h : ∀ t ∈ stretch lo n, ∃ k, Slot c k ∧ (c.item k).sector = t) : n ≤ c.sadSize := by
  by_contra hn
  have hlt := c.sadSize_lt
  have hnodup := nodup_stretch lo (n := c.sadSize + 1) (by omega)
  have hsub : (stretch lo (c.sadSize + 1)).toFinset ⊆
      (Finset.Icc 1 c.sadSize).image fun k => (c.item k).sector := by
    intro t ht
    obtain ⟨k, hk, hsector⟩ := h t (mem_stretch_mono (by omega) (mem_toFinset.mp ht))
    exact Finset.mem_image.mpr ⟨k, Finset.mem_Icc.mpr hk, hsector⟩
  have hcard := (Finset.card_le_card hsub).trans Finset.card_image_le
  rw [toFinset_card_of_nodup hnodup, length_stretch, card_Icc] at hcard
  omega

theorem stretch_nodup {lo : BitVec 64} {n : Nat}
    (h : ∀ t ∈ stretch lo n, ∃ k, Slot c k ∧ (c.item k).sector = t) : (stretch lo n).Nodup :=
  nodup_stretch lo (by have := stretch_le_sadSize h; have := c.sadSize_lt; omega)

/-! ## Looking for a chain -/

theorem previous_slot_some {esi : Nat} (hesi : esi ≤ c.sadSize) (h : previousSlot c s esi = some k) :
    Dirty c k s := by
  unfold previousSlot at h
  split_ifs at h with hsector hstatus
  · obtain rfl := Option.some.inj h
    exact ⟨⟨by omega, hesi⟩, hsector.2, hstatus⟩
  · exact lookup_modified_some h

theorem look_backward_spec (fuel : Nat) (s : BitVec 64) (esi v : Nat) (chain : Chain)
    (hesi : Dirty c esi s) (hv : ∀ t ∈ stretch s v, Modified c t) (hfuel : c.sadSize < fuel + v) :
    ∃ chain' n lo, lookBackward c fuel s esi chain = some chain' ∧
      chain'.sequential = chain.sequential ∧ chain'.size = chain.size + n + 1 ∧
      Dirty c chain'.start lo ∧ lo + BitVec.ofNat 64 n = s ∧
      ∀ t ∈ stretch lo (n + v), Modified c t := by
  induction fuel generalizing s esi v chain with
  | zero =>
    have := stretch_le_sadSize fun t ht => (hv t ht).has_slot
    omega
  | succ fuel ih =>
    rw [lookBackward]
    cases hprev : previousSlot c (s - 1) (esi - 1) with
    | none => exact ⟨_, 0, s, rfl, rfl, rfl, hesi, by simp, by simpa using hv⟩
    | some k =>
      have hk := previous_slot_some (by have := hesi.slot.2; omega) hprev
      have hv' : ∀ t ∈ stretch (s - 1) (v + 1), Modified c t := by
        intro t ht
        rw [stretch_succ, BitVec.sub_add_cancel, mem_cons] at ht
        rcases ht with rfl | ht
        · exact ⟨k, hk⟩
        · exact hv t ht
      obtain ⟨chain', n, lo, hrun, hseq, hsize, hstart, hlo, hall⟩ :=
        ih (s - 1) k (v + 1) { chain with start := esi, size := chain.size + 1 } hk hv' (by omega)
      refine ⟨chain', n + 1, lo, hrun, hseq, by simp only [hsize]; omega, hstart, ?_, ?_⟩
      · rw [add_ofNat_succ, hlo, BitVec.sub_add_cancel]
      · rwa [add_right_comm, add_assoc]

theorem look_forward_spec (fuel : Nat) (lo s : BitVec 64) (esi v : Nat) (chain : Chain)
    (hesi : Dirty c esi s) (hlo : lo + BitVec.ofNat 64 v = s + 1)
    (hv : ∀ t ∈ stretch lo v, Modified c t) (hfuel : c.sadSize < fuel + v) :
    ∃ chain' n, lookForward c fuel s esi chain = some chain' ∧
      chain'.start = chain.start ∧ chain'.size = chain.size + n + 1 ∧
      (∀ t ∈ stretch lo (v + n), Modified c t) ∧
      (chain'.sequential = true → chain.sequential = true ∧ ∀ j ≤ n, Dirty c (esi + j) (s + BitVec.ofNat 64 j)) := by
  induction fuel generalizing s esi v chain with
  | zero =>
    have := stretch_le_sadSize fun t ht => (hv t ht).has_slot
    omega
  | succ fuel ih =>
    have hstop : ∀ j ≤ 0, Dirty c (esi + j) (s + BitVec.ofNat 64 j) := by
      intro j hj
      obtain rfl : j = 0 := by omega
      simpa using hesi
    -- One more sector at `k`, by whichever way it was found.
    have hmore : ∀ k, Dirty c k (s + 1) → ∀ chain1 : Chain,
        ∃ chain' n, lookForward c fuel (s + 1) k chain1 = some chain' ∧
          chain'.start = chain1.start ∧ chain'.size = chain1.size + n + 1 ∧
          (∀ t ∈ stretch lo (v + 1 + n), Modified c t) ∧
          (chain'.sequential = true → chain1.sequential = true ∧
            ∀ j ≤ n, Dirty c (k + j) (s + 1 + BitVec.ofNat 64 j)) := by
      intro k hk chain1
      refine ih (s + 1) k (v + 1) chain1 hk ?_ ?_ (by omega)
      · rw [add_ofNat_succ, hlo]
      intro t ht
      rw [stretch_append, mem_append] at ht
      rcases ht with ht | ht
      · exact hv t ht
      · rw [hlo, stretch_succ, stretch_zero, mem_singleton] at ht
        exact ht ▸ ⟨k, hk⟩
    rw [lookForward]
    split_ifs with hnext hstatus
    · have hk : Dirty c (esi + 1) (s + 1) := ⟨⟨by omega, hnext.1⟩, hnext.2, hstatus⟩
      obtain ⟨chain', n, hrun, hstart, hsize, hall, hseq⟩ :=
        hmore (esi + 1) hk { chain with size := chain.size + 1 }
      refine ⟨chain', n + 1, hrun, hstart, by simp only [hsize]; omega,
        by rwa [add_right_comm, add_assoc] at hall, fun h => ⟨(hseq h).1, ?_⟩⟩
      rintro (- | j) hj
      · simpa using hesi
      · have := (hseq h).2 j (by omega)
        rwa [add_assoc, add_comm 1, add_one_add_ofNat] at this
    · exact ⟨_, 0, rfl, rfl, rfl, hv, fun h => ⟨h, hstop⟩⟩
    · cases hl : lookupModified c (s + 1) with
      | none => exact ⟨_, 0, rfl, rfl, rfl, hv, fun h => ⟨h, hstop⟩⟩
      | some k =>
        obtain ⟨chain', n, hrun, hstart, hsize, hall, hseq⟩ :=
          hmore k (lookup_modified_some hl) { chain with size := chain.size + 1, sequential := false }
        exact ⟨chain', n + 1, hrun, hstart, by simp only [hsize]; omega,
          by rwa [add_right_comm, add_assoc] at hall, fun h => absurd (hseq h).1 (by simp)⟩

structure ChainSpec (c : Cache α) (esi : Nat) (chain : Chain) (lo : BitVec 64) : Prop where
  start : Dirty c chain.start lo
  modified : ∀ t ∈ stretch lo chain.size, Modified c t
  mem : (c.item esi).sector ∈ stretch lo chain.size
  sequential : chain.sequential = true →
    chain.start = esi ∧ ∀ j < chain.size, Dirty c (esi + j) (lo + BitVec.ofNat 64 j)

theorem find_chain_spec {esi : Nat} (hesi : Dirty c esi s) :
    ∃ chain lo, findChain c esi = some chain ∧ ChainSpec c esi chain lo := by
  have hself : ∀ t ∈ stretch s 1, Modified c t := by
    simp only [stretch_succ, stretch_zero, mem_singleton, forall_eq]
    exact ⟨esi, hesi⟩
  simp only [findChain, hesi.sector]
  cases hl : lookupModified c (s - 1) with
  | none =>
    obtain ⟨chain, n, hrun, hstart, hsize, hall, hseq⟩ :=
      look_forward_spec (c.sadSize + 1) s s esi 1 ⟨esi, 0, true⟩ hesi rfl hself (by omega)
    simp only [zero_add] at hsize
    refine ⟨chain, s, hrun, hstart ▸ hesi, ?_, ?_, fun h => ⟨hstart, fun j hj => (hseq h).2 j (by omega)⟩⟩
    · rwa [hsize, add_comm]
    · rw [hesi.sector, hsize]
      simp
  | some k =>
    have hk := lookup_modified_some hl
    have hpair : ∀ t ∈ stretch (s - 1) 2, Modified c t := by
      intro t ht
      rw [stretch_succ, BitVec.sub_add_cancel, mem_cons] at ht
      rcases ht with rfl | ht
      · exact ⟨k, hk⟩
      · exact hself t ht
    obtain ⟨chain, n, lo, hback, hbseq, hbsize, hbstart, hlo, hball⟩ :=
      look_backward_spec (c.sadSize + 1) (s - 1) k 2 ⟨esi, 0, false⟩ hk hpair (by omega)
    have hs : lo + BitVec.ofNat 64 (n + 1) = s := by
      rw [add_ofNat_succ, hlo, BitVec.sub_add_cancel]
    have hlo' : lo + BitVec.ofNat 64 (n + 2) = s + 1 := by
      rw [add_ofNat_succ, hs]
    obtain ⟨chain', m, hrun, hstart, hsize, hall, hseq⟩ :=
      look_forward_spec (c.sadSize + 1) lo s esi (n + 2) chain hesi hlo' hball (by omega)
    simp only [zero_add] at hbsize
    refine ⟨chain', lo, ?_, hstart ▸ hbstart, ?_, ?_, fun h => absurd (hseq h).1 (by simp [hbseq])⟩
    · simp only [hback]
      exact hrun
    · rwa [hsize, hbsize, show n + 1 + m + 1 = n + 2 + m by omega]
    · rw [hesi.sector, hsize, hbsize]
      exact mem_stretch.mpr ⟨n + 1, by omega, hs.symm⟩

/-! ## Marking and copying -/

@[simp] theorem setStatus_sector (c : Cache α) (k j : Nat) (st : Status) :
    ((c.setStatus k st).item j).sector = (c.item j).sector := by
  by_cases hj : j = k <;> simp [Cache.setStatus, hj]

theorem setStatus_status (c : Cache α) (k j : Nat) (st : Status) :
    ((c.setStatus k st).item j).status = if j = k then st else (c.item j).status := by
  by_cases hj : j = k <;> simp [Cache.setStatus, hj]

@[simp] theorem markCopies_nil (c : Cache α) : c.markCopies [] = c := rfl

@[simp] theorem markCopies_cons (c : Cache α) (k : Nat) (slots : List Nat) :
    c.markCopies (k :: slots) = (c.setStatus k .copy).markCopies slots := rfl

theorem markCopies_append (c : Cache α) (l l' : List Nat) : c.markCopies (l ++ l') = (c.markCopies l).markCopies l' :=
  foldl_append ..

theorem markCopies_eq (c : Cache α) (l : List Nat) : c.markCopies l = { c with
    item := fun j => { c.item j with status := if j ∈ l then .copy else (c.item j).status } } := by
  induction l generalizing c with
  | nil => rfl
  | cons k l ih =>
    rw [markCopies_cons, ih]
    simp only [Cache.setStatus, Cache.mk.injEq, true_and]
    funext j
    by_cases hl : j ∈ l <;> by_cases hk : j = k <;> simp [hl, hk]

@[simp] theorem markCopies_sadSize (c : Cache α) (l : List Nat) : (c.markCopies l).sadSize = c.sadSize := by
  rw [markCopies_eq]

@[simp] theorem markCopies_pointer (c : Cache α) (l : List Nat) : (c.markCopies l).pointer = c.pointer := by
  rw [markCopies_eq]

@[simp] theorem markCopies_sectorSizeLog (c : Cache α) (l : List Nat) :
    (c.markCopies l).sectorSizeLog = c.sectorSizeLog := by
  rw [markCopies_eq]

@[simp] theorem markCopies_sector (c : Cache α) (l : List Nat) (j : Nat) :
    ((c.markCopies l).item j).sector = (c.item j).sector := by
  rw [markCopies_eq]

@[simp] theorem markCopies_data (c : Cache α) (l : List Nat) (j : Nat) :
    ((c.markCopies l).item j).data = (c.item j).data := by
  rw [markCopies_eq]

theorem markCopies_status (c : Cache α) (l : List Nat) (j : Nat) :
    ((c.markCopies l).item j).status = if j ∈ l then .copy else (c.item j).status := by
  rw [markCopies_eq]

theorem Present.setStatus_copy (k : Nat) (h : Present c s) : Present (c.setStatus k .copy) s := by
  obtain ⟨j, hj⟩ := h
  refine ⟨j, hj.slot, by simp [hj.sector], ?_⟩
  rw [setStatus_status]
  split_ifs
  · decide
  · exact hj.used

theorem next_slot_spec (h : Present c ((c.item k).sector + 1)) :
    Slot c (nextSlot c k) ∧ (c.item (nextSlot c k)).sector = (c.item k).sector + 1 := by
  simp only [nextSlot]
  split_ifs with hnext
  · exact ⟨⟨by omega, hnext.1⟩, hnext.2⟩
  · obtain ⟨j, hl, hj⟩ := h.lookup
    simp only [hl, Option.getD_some]
    exact ⟨hj.slot, hj.sector⟩

theorem copy_loop_spec (n k : Nat) (c : Cache α) (hk : Slot c k)
    (h : ∀ t ∈ stretch (c.item k).sector n, Present c t) :
    (copyLoop n k c).2.1 = c.markCopies (copyLoop n k c).1 ∧ (∀ j ∈ (copyLoop n k c).1, Slot c j) ∧
      (copyLoop n k c).1.map (fun j => (c.item j).sector) = stretch (c.item k).sector n ∧
      (Present c ((c.item k).sector + BitVec.ofNat 64 n) → Slot c (copyLoop n k c).2.2 ∧
        (c.item (copyLoop n k c).2.2).sector = (c.item k).sector + BitVec.ofNat 64 n) := by
  induction n generalizing k c with
  | zero => simp [copyLoop, hk]
  | succ n ih =>
    simp only [copyLoop, markCopies_cons, mem_cons, map_cons, stretch_succ, ← add_one_add_ofNat]
    -- The slot for the sector behind `k`, if there is one.
    have hnext : Present c ((c.item k).sector + 1) → Slot c (nextSlot (c.setStatus k .copy) k) ∧
          (c.item (nextSlot (c.setStatus k .copy) k)).sector = (c.item k).sector + 1 := by
      intro hp
      obtain ⟨hslot, hsector⟩ := next_slot_spec (c := c.setStatus k .copy) (k := k)
        (by rw [setStatus_sector]; exact hp.setStatus_copy k)
      simp only [setStatus_sector] at hsector
      exact ⟨hslot, hsector⟩
    cases n with
    | zero => simpa [copyLoop, hk] using hnext
    | succ n =>
      obtain ⟨hslot, hsector⟩ := hnext (h _ (by simp))
      have hpresent : ∀ t ∈ stretch ((c.item k).sector + 1) (n + 1), Present (c.setStatus k .copy) t :=
        fun t ht => (h t (mem_cons_of_mem _ ht)).setStatus_copy k
      obtain ⟨hcache, hslots, hsectors, hlast⟩ := ih (nextSlot (c.setStatus k .copy) k)
        (c.setStatus k .copy) hslot (by rw [setStatus_sector, hsector]; exact hpresent)
      simp only [setStatus_sector, hsector] at hsectors hlast
      refine ⟨hcache, ?_, by rw [hsectors, stretch_succ], fun hp => hlast (hp.setStatus_copy k)⟩
      rintro j (rfl | hj)
      · exact hk
      · exact hslots j hj

theorem mem_copyLoop {n : Nat} (hn : 0 < n) (k : Nat) (c : Cache α) : k ∈ (copyLoop n k c).1 := by
  cases n with
  | zero => omega
  | succ n => exact mem_cons_self

theorem length_copyLoop (n k : Nat) (c : Cache α) : (copyLoop n k c).1.length = n := by
  induction n generalizing k c with
  | zero => rfl
  | succ n ih => simp [copyLoop, ih]

end Kolibri.DiskCache
