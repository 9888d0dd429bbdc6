import Kolibri.Shmem.Heaps

/-!
# Regions come and go

`kernel_alloc` takes pages for a region, and the last map of the region gives them back.
-/

namespace Kolibri.Shmem

open Bitmap Paging UserHeap Tiling Ownership Function BitVec List

/-! ## `kernel_alloc` -/

def Fresh (w w' : World) (i : Nat) : Prop :=
  Present (w'.kernelTabs i) ∧ w.bitmap.free (pageOf (w'.kernelTabs i)) = true ∧
    w'.bitmap.free (pageOf (w'.kernelTabs i)) = false

structure Committed (w : World) (place n : Nat) (w' : World) : Prop where
  procs : w'.procs = w.procs
  kernelBlocks : w'.kernelBlocks = w.kernelBlocks
  shmemList : w'.shmemList = w.shmemList
  objects : w'.objects = w.objects
  valid : w'.bitmap.Valid
  free : ∀ q, w'.bitmap.free q = true → w.bitmap.free q = true
  kernelTabs : ∀ i, i < place ∨ place + n ≤ i → w'.kernelTabs i = w.kernelTabs i

def Done (w : World) (place n : Nat) (w' : World) : Prop := ∀ i, place ≤ i → i < place + n → Fresh w w' i

variable {w w' w'' : World} {place n m : Nat}

theorem Committed.refl (hvalid : w.bitmap.Valid) (place n : Nat) : Committed w place n w :=
  ⟨rfl, rfl, rfl, rfl, hvalid, fun _ hq => hq, fun _ _ => rfl⟩

theorem Committed.trans (hc : Committed w place n w') (hc' : Committed w' (place + n) m w'') :
    Committed w place (n + m) w'' where
  procs := hc'.procs.trans hc.procs
  kernelBlocks := hc'.kernelBlocks.trans hc.kernelBlocks
  shmemList := hc'.shmemList.trans hc.shmemList
  objects := hc'.objects.trans hc.objects
  valid := hc'.valid
  free q hq := hc.free q (hc'.free q hq)
  kernelTabs i hi := by rw [hc'.kernelTabs i (by omega), hc.kernelTabs i (by omega)]

theorem Committed.grow (hc : Committed w place n w') (hnm : n ≤ m) : Committed w place m w' :=
  { hc with kernelTabs := fun i hi => hc.kernelTabs i (by omega) }

theorem Done.trans (hc : Committed w place n w') (hc' : Committed w' (place + n) m w'') (hd : Done w place n w')
    (hd' : Done w' (place + n) m w'') : Done w place (n + m) w'' := by
  intro i hlo hhi
  rcases Nat.lt_or_ge i (place + n) with hlt | hge
  · obtain ⟨hpresent, hwas, hnow⟩ := hd i hlo hlt
    unfold Fresh
    rw [hc'.kernelTabs i (.inl hlt)]
    refine ⟨hpresent, hwas, ?_⟩
    by_contra hfree
    rw [hc'.free _ (by simpa using hfree)] at hnow
    cases hnow
  · obtain ⟨hpresent, hwas, hnow⟩ := hd' i hge (by omega)
    exact ⟨hpresent, hc.free _ hwas, hnow⟩

theorem kernel_entry (pat pge : Bool) {phys : BitVec 32} {f : Nat} (j : Nat) (hphys : phys.toNat = 4096 * f)
    (hj : f + j < 2 ^ 20) :
    let entry := (mapPage (pteValidMask pat pge) phys (pgGlobal ||| pgSwr) + BitVec.ofNat 32 (4096 * j)).toNat
    Present entry ∧ pageOf entry = f + j := by
  have hframe := map_page_frame pat pge phys (pgGlobal ||| pgSwr) (by decide)
  have hlow : (mapPage (pteValidMask pat pge) phys (pgGlobal ||| pgSwr)).getLsbD 0 = true := by
    unfold mapPage
    rw [getLsbD_and, getLsbD_or, pteValidMask_low pat pge 0 (by omega),
      show (pgGlobal ||| pgSwr).getLsbD 0 = true by decide]
    simp
  rw [BitVec.getLsbD, Nat.testBit_zero, decide_eq_true_eq] at hlow
  unfold frame at hframe
  intro entry
  have hentry : entry = _ := toNat_add ..
  rw [toNat_ofNat] at hentry
  unfold Present pageOf
  rw [Nat.and_one_is_mod]
  exact ⟨by omega, by omega⟩

theorem kernel_alloc_run_spec (pat pge : Bool) (hvalid : w.bitmap.Valid) (linAddr : Nat) {ebx : Nat}
    (hebx : ebx < 2 ^ 20) :
    Committed w linAddr ebx (kernelAllocRun (pteValidMask pat pge) w linAddr ebx).1 ∧
      ((kernelAllocRun (pteValidMask pat pge) w linAddr ebx).2 = true →
        Done w linAddr ebx (kernelAllocRun (pteValidMask pat pge) w linAddr ebx).1) := by
  have hcount : (BitVec.ofNat 32 ebx).toNat = ebx := by
    rw [toNat_ofNat]
    omega
  obtain ⟨hvalid', hfree, htook⟩ := alloc_pages_took w.bitmap hvalid (BitVec.ofNat 32 ebx)
  unfold kernelAllocRun
  simp only
  split_ifs with hzero hphys
  · exact ⟨Committed.refl hvalid _ _, fun _ i _ _ => by omega⟩
  · exact ⟨⟨rfl, rfl, rfl, rfl, hvalid', hfree, fun _ _ => rfl⟩, nofun⟩
  · obtain ⟨f, hret, hf, hrun⟩ := htook hphys
    refine ⟨⟨rfl, rfl, rfl, rfl, hvalid', hfree, fun i hi => if_neg (by omega)⟩, fun _ i hlo hhi => ?_⟩
    obtain ⟨hpresent, hpage⟩ := kernel_entry pat pge (i - linAddr) hret (by omega)
    have hentry : commitPages (pteValidMask pat pge) w.kernelTabs
        ((allocPages w.bitmap (BitVec.ofNat 32 ebx)).2 ||| (pgGlobal ||| pgSwr)) linAddr ebx i =
        (mapPage (pteValidMask pat pge) (allocPages w.bitmap (BitVec.ofNat 32 ebx)).2 (pgGlobal ||| pgSwr) +
          BitVec.ofNat 32 (4096 * (i - linAddr))).toNat := if_pos ⟨hlo, hhi⟩
    unfold Fresh
    dsimp only
    rw [hentry, hpage]
    exact ⟨hpresent, hrun _ (by omega) (by omega)⟩

theorem kernel_alloc_tail_spec (pat pge : Bool) (hvalid : w.bitmap.Valid) (edx ebx : Nat) :
    Committed w edx ebx (kernelAllocTail (pteValidMask pat pge) ebx w edx).1 ∧
      ((kernelAllocTail (pteValidMask pat pge) ebx w edx).2 = true →
        Done w edx ebx (kernelAllocTail (pteValidMask pat pge) ebx w edx).1) := by
  induction ebx generalizing w edx with
  | zero => exact ⟨Committed.refl hvalid _ _, fun _ i _ _ => by omega⟩
  | succ ebx ih =>
    obtain ⟨hvalid', hfree, htook⟩ := alloc_page_took w.bitmap hvalid
    unfold kernelAllocTail
    simp only
    split_ifs with hphys
    · exact ⟨⟨rfl, rfl, rfl, rfl, hvalid', hfree, fun _ _ => rfl⟩, nofun⟩
    obtain ⟨f, hret, hf, hwas, hnow⟩ := htook hphys
    obtain ⟨hpresent, hpage⟩ := kernel_entry pat pge 0 hret (by omega)
    rw [Nat.mul_zero, BitVec.add_zero] at hpresent hpage
    let w1 : World := { w with
      bitmap := (allocPage w.bitmap).1
      kernelTabs := update w.kernelTabs edx
        (mapPage (pteValidMask pat pge) (allocPage w.bitmap).2 (pgGlobal ||| pgSwr)).toNat }
    have hone : Committed w edx 1 w1 :=
      ⟨rfl, rfl, rfl, rfl, hvalid', hfree, fun i hi => update_of_ne (by omega) _ _⟩
    have hdone : Done w edx 1 w1 := by
      intro i hlo hhi
      obtain rfl : i = edx := by omega
      have hentry : w1.kernelTabs i = _ := update_self ..
      unfold Fresh
      rw [hentry, hpage]
      exact ⟨hpresent, hwas, hnow⟩
    obtain ⟨hrest, hrestDone⟩ := ih (w := w1) hvalid' (edx + 1)
    rw [show ebx + 1 = 1 + ebx by omega]
    exact ⟨hone.trans hrest, fun hret => Done.trans hone hrest hdone (hrestDone hret)⟩

theorem kernel_alloc_spec (pat pge : Bool) (hvalid : w.bitmap.Valid) (size : BitVec 32) (place : Nat) :
    kernelAlloc (pteValidMask pat pge) w size place = (w, 0) ∨
    ∃ n, 0 < n ∧ SpaceFree w place n ∧ Committed { w with kernelBlocks := (place, n) :: w.kernelBlocks } place n
        (kernelAlloc (pteValidMask pat pge) w size place).1 ∧
      ((kernelAlloc (pteValidMask pat pge) w size place).2 = 0 ∨
        (kernelAlloc (pteValidMask pat pge) w size place).2 = 4096 * place ∧
        n = (size.toNat + 4095) % 2 ^ 32 / 4096 ∧ Done w place n (kernelAlloc (pteValidMask pat pge) w size place).1) := by
  obtain ⟨n, hn⟩ : ∃ n, (size.toNat + 4095) % 2 ^ 32 / 4096 = n := ⟨_, rfl⟩
  unfold kernelAlloc
  simp only [hn]
  by_cases hzero : n = 0
  · exact .inl (if_pos hzero)
  rw [if_neg hzero]
  unfold allocKernelSpace
  by_cases hspace : SpaceFree w place n
  swap
  · left
    simp [if_neg hspace]
  have hplace : place ≠ 0 := by
    have hlo := hspace.1
    omega
  right
  refine ⟨n, by omega, hspace, ?_⟩
  simp only [if_pos hspace, if_neg hplace]
  let w0 : World := { w with kernelBlocks := (place, n) :: w.kernelBlocks }
  obtain ⟨hc1, hd1⟩ := kernel_alloc_run_spec (w := w0) pat pge hvalid place (by omega : n / 8 * 8 < 2 ^ 20)
  have htail := kernel_alloc_tail_spec pat pge hc1.valid (place + n / 8 * 8) (n % 8)
  have hc := hc1.trans htail.1
  split_ifs with hdone1 hdone2
  · have hd := Done.trans hc1 htail.1 (hd1 hdone1) (htail.2 hdone2)
    rw [show n / 8 * 8 + n % 8 = n by omega] at hc hd
    exact ⟨hc, .inr ⟨rfl, trivial, hd⟩⟩
  · rw [show n / 8 * 8 + n % 8 = n by omega] at hc
    exact ⟨hc, .inl rfl⟩
  · exact ⟨hc1.grow (by omega), .inl rfl⟩

section

variable {process : Nat → Nat} {ls : Nat → List (Kind × Nat)} {reg : Nat → Nat → Nat}

theorem KernelInv.region_apart (hK : KernelInv process w) (hspace : SpaceFree w place n) {r : Smem}
    (hr : r ∈ w.shmemList) :
    0 < r.size / 4096 ∧ 0x80800 ≤ r.base / 4096 ∧
      (place + n ≤ r.base / 4096 ∨ r.base / 4096 + r.size / 4096 ≤ place) := by
  have hblock := (hK.regions r hr).2.2
  have hbounds := hK.blocks _ hblock
  exact ⟨hbounds.2.1, hbounds.1, hspace.2.2 _ hblock⟩

theorem KernelInv.committed {new : Option Smem} (hK : KernelInv process w) (hn : 0 < n) (hspace : SpaceFree w place n)
    (hc : Committed { w with kernelBlocks := (place, n) :: w.kernelBlocks } place n w')
    (hnew : ∀ r ∈ new, r.base = 4096 * place ∧ r.size = 4096 * n ∧ r.refcount = 0 ∧ Done w place n w') :
    KernelInv process { w' with shmemList := new.toList ++ w'.shmemList } := by
  have hblocks : w'.kernelBlocks = (place, n) :: w.kernelBlocks := hc.kernelBlocks
  have hlist : w'.shmemList = w.shmemList := hc.shmemList
  have hobjects : w'.objects = w.objects := hc.objects
  have hprocs : w'.procs = w.procs := hc.procs
  -- The base of the new region is the base of no other.
  have hother : ∀ r ∈ w.shmemList, r.base ≠ 4096 * place := by
    intro r hr heq
    have hapart := hK.region_apart hspace hr
    omega
  have hpage : ∀ r ∈ new, r.base / 4096 = place ∧ r.size / 4096 = n := by
    intro r hr
    obtain ⟨hbase, hsize, -⟩ := hnew r hr
    omega
  refine ⟨?_, ?_, ?_, ?_, ?_, ?_, ?_, ?_⟩ <;> simp only [hblocks, hlist, hobjects, hprocs]
  · intro b hb
    rcases mem_cons.mp hb with rfl | hb
    · exact ⟨hspace.1, hn, hspace.2.1⟩
    · exact hK.blocks b hb
  · exact pairwise_cons.mpr ⟨fun b hb => hspace.2.2 b hb, hK.apart⟩
  · intro r hr
    rcases mem_append.mp hr with hr | hr
    · have hr := Option.mem_toList.mp hr
      obtain ⟨hbase, hsize, -⟩ := hnew r hr
      rw [(hpage r hr).1, (hpage r hr).2]
      exact ⟨by omega, by omega, mem_cons_self⟩
    · obtain ⟨hbase, hsize, hblock⟩ := hK.regions r hr
      exact ⟨hbase, hsize, mem_cons_of_mem _ hblock⟩
  · intro r hr j hj
    rcases mem_append.mp hr with hr | hr
    · have hr := Option.mem_toList.mp hr
      rw [(hpage r hr).2] at hj
      rw [(hpage r hr).1]
      exact ((hnew r hr).2.2.2 _ (by omega) (by omega)).1
    · have hapart := hK.region_apart hspace hr
      rw [hc.kernelTabs _ (by omega)]
      exact hK.present r hr j hj
  · cases new with
    | none => exact hK.distinct
    | some r =>
      refine nodup_cons.mpr ⟨fun hmem => ?_, hK.distinct⟩
      obtain ⟨r', hr', heq⟩ := mem_map.mp hmem
      exact hother r' hr' (heq.trans (hnew r rfl).1)
  · intro m hm
    obtain ⟨r, hr, heq⟩ := hK.parents m hm
    exact ⟨r, mem_append_right _ hr, heq⟩
  · intro r hr
    rcases mem_append.mp hr with hr | hr
    · -- No map can name a region that is not there yet.
      have hr := Option.mem_toList.mp hr
      rw [(hnew r hr).2.2.1, eq_comm, countP_eq_zero]
      intro m hm heq
      obtain ⟨r', hr', hparent⟩ := hK.parents m hm
      rw [decide_eq_true_eq] at heq
      exact hother r' hr' (hparent.trans (heq.trans (hnew r hr).1))
    · exact hK.counts r hr
  · exact hK.maps

theorem Inv.committed {new : Option Smem} (hI : Inv process w ls reg) (hn : 0 < n) (hspace : SpaceFree w place n)
    (hc : Committed { w with kernelBlocks := (place, n) :: w.kernelBlocks } place n w')
    (hnew : ∀ r ∈ new, r.base = 4096 * place ∧ r.size = 4096 * n ∧ r.refcount = 0 ∧ Done w place n w') :
    Inv process { w' with shmemList := new.toList ++ w'.shmemList } ls reg := by
  have hprocs : w'.procs = w.procs := hc.procs
  have hlist : w'.shmemList = w.shmemList := hc.shmemList
  have hlow := hspace.1
  let w1 : World := { w' with shmemList := new.toList ++ w'.shmemList }
  have hgroup : ∀ k, groupOf w1 ls reg k = groupOf w ls reg k := by
    intro k
    cases k with
    | user p i => simp only [groupOf, World.blockAt, w1, hprocs]
    | kernel r j => rfl
  have hmaps : ∀ k q, Maps w1 k q → Maps w k q ∨
      (w.bitmap.free q = true ∧ ¬ w'.bitmap.free q = true) ∧ groupOf w ls reg k = .region (4096 * place) := by
    intro k q hk
    cases k with
    | user p i =>
      simp only [Maps, w1, hprocs] at hk
      exact .inl hk
    | kernel r j =>
      obtain ⟨⟨s, hs, rfl, hj⟩, hpresent, hpage⟩ := hk
      rcases mem_append.mp hs with hs | hs
      · obtain ⟨hbase, hsize, -, hdone⟩ := hnew s (Option.mem_toList.mp hs)
        obtain ⟨-, hwas, hnow⟩ := hdone (s.base / 4096 + j) (by omega) (by omega)
        have hpage : pageOf (w'.kernelTabs (s.base / 4096 + j)) = q := hpage
        rw [hpage] at hwas hnow
        exact .inr ⟨⟨hwas, by rw [hnow]; decide⟩, by rw [← hbase]; rfl⟩
      rw [hlist] at hs
      have hapart := hI.kernel.region_apart hspace hs
      have hsame : w1.kernelTabs (s.base / 4096 + j) = w.kernelTabs (s.base / 4096 + j) := hc.kernelTabs _ (by omega)
      rw [hsame] at hpresent hpage
      exact .inl ⟨⟨s, hs, rfl, hj⟩, hpresent, hpage⟩
  refine ⟨hc.valid, fun p => ?_, ?_, ?_, fun p i hi hpresent hshared => ?_, hI.kernel.committed hn hspace hc hnew⟩
  · refine tiled_congr (hI.tiled p) (fun i hi => ?_) ⟨?_, ?_⟩
    · rw [heap_tabs_user _ _ hi, heap_tabs_user _ _ hi]
      rw [hprocs]
    · simp only [World.heap, hprocs]
    · simp only [World.heap, hprocs]
  · dsimp only
    rw [hc.kernelTabs topPage (.inl (by unfold topPage; omega))]
    exact hI.guard
  · refine hI.owned.add (fun k q hk => ?_) (fun k k' q hk hk' hq => ?_) hc.free
    · rcases hmaps k q hk with hold | ⟨hfresh, -⟩
      · exact .inl ⟨hold, hgroup k⟩
      · exact .inr hfresh
    rcases hmaps k q hk with hold | ⟨-, hregion⟩
    · exact absurd hq (hI.owned.taken k q hold)
    rcases hmaps k' q hk' with hold | ⟨-, hregion'⟩
    · exact absurd hq (hI.owned.taken k' q hold)
    rw [hgroup, hgroup, hregion, hregion']
  · dsimp only [World.blockAt] at hpresent hshared ⊢
    rw [hprocs] at hpresent hshared ⊢
    rw [hc.objects]
    exact hI.linked p i hi hpresent hshared

end

end Kolibri.Shmem
