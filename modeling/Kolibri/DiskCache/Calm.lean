import Kolibri.DiskCache.Chains

/-! # Calm caches

There the walk in step 13 takes the slots the chain was found in.
-/

namespace Kolibri.DiskCache

open Stretch

variable {α : Type*} {c : Cache α} {k : Nat} {s : BitVec 64}

def Distinct (c : Cache α) : Prop := ∀ j k s, Holds c j s → Holds c k s → j = k

/-- No empty slot behind a modified item passes for the next sector of its chain. -/
def NoStale (c : Cache α) : Prop :=
  ∀ k < c.sadSize, 1 ≤ k → (c.item k).status = .modified → (c.item (k + 1)).status = .empty →
    (c.item (k + 1)).sector = (c.item k).sector + 1 →
    ∀ j ≤ c.sadSize, 1 ≤ j → (c.item j).status = .modified → (c.item j).sector ≠ (c.item k).sector + 1

structure Calm (c : Cache α) : Prop where
  distinct : Distinct c
  noStale : NoStale c

variable {j : Nat} {l : List Nat}

theorem Distinct.dirty (hc : Distinct c) (hj : Dirty c j s) (hk : Dirty c k s) : j = k :=
  hc j k s hj.holds hk.holds

theorem Distinct.markCopies (hc : Distinct c) (hl : ∀ k ∈ l, (c.item k).status = .modified) :
    Distinct (c.markCopies l) := by
  have hback : ∀ j s, Holds (c.markCopies l) j s → Holds c j s := by
    intro j s hj
    refine ⟨by simpa [Slot] using hj.slot, by simpa using hj.sector, ?_⟩
    have := hj.used
    rw [markCopies_status] at this
    split_ifs at this with hmem
    · rw [hl j hmem]
      decide
    · exact this
  exact fun j k s hj hk => hc j k s (hback j s hj) (hback k s hk)

theorem markCopies_modified (h : ((c.markCopies l).item j).status = .modified) :
    j ∉ l ∧ (c.item j).status = .modified := by
  rw [markCopies_status] at h
  split_ifs at h with hmem
  exact ⟨hmem, h⟩

theorem NoStale.markCopies (hc : NoStale c) (l : List Nat) : NoStale (c.markCopies l) := by
  intro k hk hk1 hmod hempty hsector j hj hj1 hmodj
  simp only [markCopies_sadSize, markCopies_sector] at hk hsector hj ⊢
  refine hc k hk hk1 (markCopies_modified hmod).2 ?_ hsector j hj hj1 (markCopies_modified hmodj).2
  rw [markCopies_status] at hempty
  split_ifs at hempty
  exact hempty

theorem Calm.markCopies (hc : Calm c) (hl : ∀ k ∈ l, (c.item k).status = .modified) : Calm (c.markCopies l) :=
  ⟨hc.distinct.markCopies hl, hc.noStale.markCopies l⟩

theorem Dirty.markCopies (h : Dirty c k s) (hl : k ∉ l) : Dirty (c.markCopies l) k s :=
  ⟨by simpa [Slot] using h.slot, by simpa using h.sector, by rw [markCopies_status, if_neg hl, h.status]⟩

theorem Dirty.of_markCopies (h : Dirty (c.markCopies l) k s) : Dirty c k s :=
  ⟨by simpa [Slot] using h.slot, by simpa using h.sector, (markCopies_modified h.status).2⟩

/-! ## Copying -/

theorem next_slot_dirty (hc : Calm c) (hk : Dirty c k s) (hj : Dirty c j (s + 1)) :
    nextSlot (c.markCopies [k]) k = j := by
  have hcalm : Calm (c.markCopies [k]) := hc.markCopies (by simp [hk.status])
  have hjk : j ∉ [k] := by
    simp only [List.mem_singleton]
    rintro rfl
    have := hk.sector.symm.trans hj.sector
    simp at this
  have hj' := (hj.markCopies hjk).holds
  simp only [nextSlot, markCopies_sector, markCopies_sadSize, hk.sector]
  split_ifs with hnext
  · -- The neighbour is not empty, or it would be stale.
    refine hc.distinct _ _ _ ⟨⟨by omega, hnext.1⟩, hnext.2, ?_⟩ hj.holds
    intro hempty
    exact hc.noStale k (by omega) hk.slot.1 hk.status hempty (by rw [hk.sector]; exact hnext.2) j hj.slot.2
      hj.slot.1 hj.status (by rw [hk.sector]; exact hj.sector)
  · obtain ⟨i, hl, hi⟩ := Present.lookup ⟨j, hj'⟩
    simp only [hl, Option.getD_some]
    exact hcalm.distinct _ _ _ hi hj'

theorem copy_loop_dirty (n k : Nat) (lo : BitVec 64) (c : Cache α) (hc : Calm c) (hk : Dirty c k lo)
    (h : ∀ t ∈ stretch lo n, Modified c t) :
    (∀ j ∈ (copyLoop n k c).1, (c.item j).status = .modified) ∧
      ∀ j, Dirty c j (lo + BitVec.ofNat 64 n) → (copyLoop n k c).2.2 = j := by
  induction n generalizing k lo c with
  | zero =>
    refine ⟨by simp [copyLoop], fun j hj => ?_⟩
    exact hc.distinct.dirty hk (by simpa using hj)
  | succ n ih =>
    have hcalm : Calm (c.markCopies [k]) := hc.markCopies (by simp [hk.status])
    -- A sector of the stretch that is not the first has another slot.
    have hother : ∀ m, (∀ t ∈ stretch lo m, Modified c t) → ∀ t ∈ stretch (lo + 1) (m - 1), ∀ j,
        Dirty c j t → Dirty (c.markCopies [k]) j t := by
      intro m hm t ht j hj
      cases m with
      | zero => simp at ht
      | succ m =>
        have hnodup := stretch_nodup fun t ht => (hm t ht).has_slot
        rw [stretch_succ, List.nodup_cons] at hnodup
        refine hj.markCopies ?_
        simp only [List.mem_singleton]
        rintro rfl
        exact hnodup.1 ((hk.sector.symm.trans hj.sector) ▸ ht)
    have hloop : copyLoop (n + 1) k c = (k :: (copyLoop n (nextSlot (c.markCopies [k]) k) (c.markCopies [k])).1,
          (copyLoop n (nextSlot (c.markCopies [k]) k) (c.markCopies [k])).2) := rfl
    rw [hloop]
    cases n with
    | zero =>
      refine ⟨by simp [copyLoop, hk.status], fun j hj => ?_⟩
      exact next_slot_dirty hc hk (by simpa using hj)
    | succ n =>
      obtain ⟨j, hj⟩ := h (lo + 1) (by simp)
      rw [next_slot_dirty hc hk hj]
      obtain ⟨hslots, hlast⟩ := ih j (lo + 1) (c.markCopies [k]) hcalm
        (hother (n + 2) h _ (by simp) j hj)
        fun t ht => (h t (List.mem_cons_of_mem _ ht)).imp fun i hi => hother (n + 2) h t ht i hi
      constructor
      · intro i hi
        rcases List.mem_cons.mp hi with rfl | hi
        · exact hk.status
        · exact (markCopies_modified (hslots i hi)).2
      intro i hi
      refine hlast i (hother (n + 3) ?_ _ ?_ i (by rwa [add_one_add_ofNat]))
      · intro t ht
        rw [stretch_append lo (n + 2) 1, List.mem_append] at ht
        rcases ht with ht | ht
        · exact h t ht
        · rw [stretch_succ, stretch_zero, List.mem_singleton] at ht
          exact ht ▸ ⟨i, hi⟩
      · exact mem_stretch.mpr ⟨n + 1, by omega, rfl⟩

end Kolibri.DiskCache
