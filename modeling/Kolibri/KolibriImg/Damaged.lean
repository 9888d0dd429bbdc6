import Kolibri.KolibriImg.Chains

/-! # Damaged FATs

Chains that end early, cross or come back to themselves.
-/

namespace Kolibri.KolibriImg.Image

open Outcome List

variable {img img' : Image} {c d fuel n : Nat} {out : List (BitVec 8)}

/-! ## Reading -/

def Passes (img : Image) (c : Nat) : Prop := img.goesOn c = true ∧ img.InFat c ∧ img.InData c

/-- As long as bytes are missing, the FAT leads to a further cluster. -/
def Suffices (img : Image) (start size : Nat) : Prop := ∀ k ≤ chainLimit, k * img.bpb.clusterSize < size →
  (∀ j < k, img.Passes (img.fatEntry^[j] start)) → img.goesOn (img.fatEntry^[k] start) = true

theorem readLoop_full_iff (hout : out.length < n) :
    (∀ res, img.readLoop (some n) fuel c out = .ok res → n ≤ res.length) ↔
      ∀ k < fuel, out.length + k * img.bpb.clusterSize < n → (∀ j < k, img.Passes (img.fatEntry^[j] c)) →
        img.goesOn (img.fatEntry^[k] c) = true := by
  induction fuel generalizing c out with
  | zero => simp [readLoop]
  | succ fuel ih =>
    by_cases hgo : img.goesOn c = true
    swap
    · refine iff_of_false (fun h => ?_) fun h => hgo (h 0 (by omega) (by omega) (by simp))
      exact absurd (h out (by rw [readLoop, if_neg hgo])) (by omega)
    have hlen : (out ++ img.slice (img.clusterAt c) img.bpb.clusterSize).length = out.length + img.bpb.clusterSize := by
      simp
    have hnext := @ih (img.fatEntry c) (out ++ img.slice (img.clusterAt c) img.bpb.clusterSize)
    rw [readLoop, if_pos hgo, clusterOffset_eq_ok.mpr ⟨(goesOn_iff.mp hgo).1, rfl⟩, ok_bind]
    constructor
    · intro h k hk hlt hpass
      cases k with
      | zero => exact hgo
      | succ k =>
        obtain ⟨-, hin, hdata⟩ : img.Passes c := hpass 0 (by omega)
        rw [Nat.succ_mul] at hlt
        rw [require_of_pos hdata.2, ok_bind] at h
        dsimp only [Option.any_some] at h
        rw [hlen, if_neg (by simp; omega), fatGet_eq_ok.mpr ⟨hin, rfl⟩, ok_bind, hnext (by omega)] at h
        exact h k (by omega) (by omega) fun j hj => hpass (j + 1) (by omega)
    · intro h res hres
      obtain ⟨_, hend, hres⟩ := bind_eq_ok.mp hres
      dsimp only [Option.any_some] at hres
      split at hres
      · rename_i hreached
        cases hres
        rw [hlen]
        simpa using hreached
      · rename_i hmore
        obtain ⟨_, hget, hres⟩ := bind_eq_ok.mp hres
        obtain ⟨hin, rfl⟩ := fatGet_eq_ok.mp hget
        refine (hnext (by simpa using hmore)).mpr (fun k hk hlt hpass => ?_) res hres
        refine h (k + 1) (by omega) (by rw [Nat.succ_mul]; omega) fun j hj => ?_
        cases j with
        | zero => exact ⟨hgo, hin, (goesOn_iff.mp hgo).1, require_eq_ok.mp hend⟩
        | succ j => exact hpass j (by omega)

theorem readFile_whole_iff (img : Image) (e : DirEntry) :
    (∀ bytes, img.readFile e = .ok bytes → bytes.length = e.size) ↔ img.Suffices e.startCluster e.size := by
  have hread : (∀ bytes, img.readFile e = .ok bytes → bytes.length = e.size) ↔
      ∀ data, img.readClusters e.startCluster (some e.size) = .ok data → e.size ≤ data.length := by
    simp [readFile, bind_eq_ok]
  rw [hread, readClusters]
  rcases Nat.eq_zero_or_pos e.size with hzero | hpos
  · simp [hzero, Suffices]
  split_ifs with hlow
  · refine iff_of_false (fun h => ?_) fun h => ?_
    · exact absurd (h [] rfl) (by simp; omega)
    · have := (goesOn_iff.mp (h 0 (by omega) (by omega) (by simp))).1
      exact absurd hlow (not_lt.mpr this)
  · rw [readLoop_full_iff (by simpa using hpos)]
    simp [Suffices, Nat.lt_succ_iff]

/-- The chain has one cluster of 512 bytes, and the entry counts 600. -/
theorem readFile_short : ¬ ∀ (img : Image) (e : DirEntry) (bytes : List (BitVec 8)), img.readFile e = .ok bytes →
    bytes.length = e.size := by
  intro h
  have hread : (smallImage 1).readFile ⟨[], 0, 2, 600⟩ = .ok (List.replicate 512 0) := by decide +kernel
  have hlen := h _ _ _ hread
  rw [length_replicate] at hlen
  exact absurd hlen (by decide)

/-! ## Releasing -/

inductive Reached (img : Image) (start : Nat) : Nat → Prop
  | start : img.goesOn start = true → Reached img start start
  | next {c : Nat} : Reached img start c → img.goesOn (img.fatEntry c) = true → Reached img start (img.fatEntry c)

theorem Reached.goesOn_start (h : img.Reached c d) : img.goesOn c = true := by
  induction h with
  | start hgo => exact hgo
  | next _ _ ih => exact ih

theorem reached_iff (hgo : img.goesOn c = true) :
    img.Reached c d ↔ d = c ∨ (img.setEntry c 0).Reached (img.fatEntry c) d := by
  constructor
  · intro h
    induction h with
    | start => exact .inl rfl
    | @next d' _ hnext ih =>
      by_cases hd : d' = c
      · exact .inr (hd ▸ .start hnext)
      · rw [← img.fatEntry_setEntry_of_ne 0 hd] at hnext ⊢
        exact .inr (.next (ih.resolve_left hd) hnext)
  · rintro (rfl | h)
    · exact .start hgo
    induction h with
    | start hnext => exact .next (.start hgo) hnext
    | @next d' _ hnext ih =>
      have hd : d' ≠ c := by
        rintro rfl
        rw [fatEntry_setEntry_self, Nat.zero_mod] at hnext
        exact absurd hnext (by simp [goesOn])
      rw [img.fatEntry_setEntry_of_ne 0 hd] at hnext ⊢
      exact .next ih hnext

theorem freeLoop_zeroes (h : freeLoop fuel img c = .ok img') :
    (∀ d, img.Reached c d → img'.fatEntry d = 0) ∧ ∀ d, ¬ img.Reached c d → img'.fatEntry d = img.fatEntry d := by
  induction fuel generalizing img c with
  | zero => exact absurd h fail_ne_ok
  | succ fuel ih =>
    rw [freeLoop] at h
    split at h
    · rename_i hgo
      simp only [bind_eq_ok, fatGet_eq_ok, fatSet_eq_ok] at h
      obtain ⟨_, ⟨-, rfl⟩, _, ⟨-, rfl⟩, h⟩ := h
      obtain ⟨hzero, hkept⟩ := ih h
      simp only [reached_iff hgo]
      refine ⟨?_, fun d hd => ?_⟩
      · rintro d (rfl | hd)
        · by_cases hd : (img.setEntry d 0).Reached (img.fatEntry d) d
          · exact hzero d hd
          · rw [hkept d hd, fatEntry_setEntry_self, Nat.zero_mod]
        · exact hzero d hd
      · obtain ⟨hne, hd⟩ := not_or.mp hd
        rw [hkept d hd, img.fatEntry_setEntry_of_ne 0 hne]
    · rename_i hstop
      cases h
      exact ⟨fun d hd => absurd hd.goesOn_start hstop, fun _ _ => rfl⟩

def used (img : Image) : Finset Nat := {c ∈ Finset.range img.bpb.fatKind.eocMin | img.fatEntry c ≠ 0}

theorem freeLoop_error (hfat : img.bpb.fatOffset + img.bpb.fatSize ≤ img.data.len) (hfuel : img.used.card + 1 < fuel)
    {f : Failure} (h : freeLoop fuel img c = .error f) : f = .error img.bpb.fatKind.indexText := by
  induction fuel generalizing img c with
  | zero => omega
  | succ fuel ih =>
    rw [freeLoop] at h
    split at h
    swap
    · cases h
    rename_i hgo
    by_cases hin : img.bpb.fatKind.entryOffset c + 1 < img.bpb.fatSize
    swap
    · have hget : img.fatGet c = fail img.bpb.fatKind.indexText := by
        rw [fatGet, within_of_pos (by omega), ok_bind]
        simp only [require, hin, if_false]
        rfl
      rw [hget] at h
      exact (Except.error.inj h).symm
    have hlen : img.wordAt c + 1 < img.data.len := by
      unfold wordAt
      omega
    rw [fatGet_eq_ok.mpr ⟨⟨hin, hlen⟩, rfl⟩, ok_bind, fatSet_eq_ok.mpr ⟨hlen, rfl⟩, ok_bind] at h
    by_cases hzero : img.fatEntry c = 0
    · -- The walk comes to a free cluster, or back to one that it has freed.
      obtain ⟨fuel, rfl⟩ := Nat.exists_eq_succ_of_ne_zero (show fuel ≠ 0 by omega)
      rw [hzero, freeLoop, if_neg (by simp [goesOn])] at h
      cases h
    have hless : (img.setEntry c 0).used ⊂ img.used := by
      have hmem : c ∈ img.used := by simpa [used] using ⟨(goesOn_iff.mp hgo).2, hzero⟩
      refine Finset.ssubset_iff_subset_ne.mpr ⟨fun d hd => ?_, fun heq => ?_⟩
      · by_cases hne : d = c
        · exact hne ▸ hmem
        · simpa [used, img.fatEntry_setEntry_of_ne 0 hne] using hd
      · rw [← heq] at hmem
        simp [used, fatEntry_setEntry_self] at hmem
    have hcard := Finset.card_lt_card hless
    exact @ih (img.setEntry c 0) _ hfat (by omega) h

/-- **Releasing a chain of any shape** ends, and frees the clusters it leads through and no other. -/
theorem freeChain_frees_reached (img : Image) (start : Nat)
    (hfat : img.bpb.fatOffset + img.bpb.fatSize ≤ img.data.len) :
    img.freeChain start ≠ fail "FAT free: chain too long / loop" ∧ ∀ img', img.freeChain start = .ok img' →
      (∀ c, img.Reached start c → img'.fatEntry c = 0) ∧
        ∀ c, ¬ img.Reached start c → img'.fatEntry c = img.fatEntry c := by
  have hused : img.used.card ≤ img.bpb.fatKind.eocMin :=
    (Finset.card_filter_le _ _).trans (Finset.card_range _).le
  have hmin := img.bpb.fatKind.eocMin_lt
  unfold freeChain
  split_ifs with hlow
  · have hstop : ∀ c, ¬ img.Reached start c := fun c hc =>
      absurd hlow (not_lt.mpr (goesOn_iff.mp hc.goesOn_start).1)
    refine ⟨nofun, fun img' h => ?_⟩
    cases h
    exact ⟨fun c hc => absurd hc (hstop c), fun _ _ => rfl⟩
  · refine ⟨fun h => ?_, fun img' h => freeLoop_zeroes h⟩
    have htext := Failure.error.inj (freeLoop_error hfat (by unfold chainLimit; omega) h)
    cases hkind : img.bpb.fatKind <;> simp [hkind, FatKind.indexText] at htext

/-- Cluster 2 leads to 3, and 3 back to 2. -/
theorem freeChain_frees_cycle : ((smallImage 1).setEntry 2 3 |>.setEntry 3 2).freeChain 2 ≠
    fail "FAT free: chain too long / loop" :=
  (freeChain_frees_reached ((smallImage 1).setEntry 2 3 |>.setEntry 3 2) 2 (by decide)).1

end Kolibri.KolibriImg.Image
