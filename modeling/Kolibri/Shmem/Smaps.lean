import Kolibri.Shmem.Regions

/-! # Maps of regions

The region is there as long as it has a map.
-/

namespace Kolibri.Shmem

open Bitmap Paging UserHeap Tiling Ownership Function List

variable {process : Nat → Nat} {w w' : World} {ls : Nat → List (Kind × Nat)} {reg : Nat → Nat → Nat} {p : Nat}

theorem Inv.fewer_places (hI : Inv process w ls reg) (hprocs : w'.procs = w.procs) (hvalid : w'.bitmap.Valid)
    (hguard : w'.kernelTabs topPage = w.kernelTabs topPage) (hmaps : ∀ k q, Maps w' k q → Maps w k q)
    (hfree : ∀ q, w'.bitmap.free q = true → w.bitmap.free q = true ∨ ∀ k, ¬ Maps w' k q)
    (hlinked : ∀ p i, i < topPage → Present ((w.procs p).tabs i) → Shared ((w.procs p).tabs i) →
      Linked process w'.objects p (reg p i) (w.blockAt ls p i))
    (hK : KernelInv process w') : Inv process w' ls reg := by
  have hblockAt : ∀ p i, w'.blockAt ls p i = w.blockAt ls p i := fun p i => by
    unfold World.blockAt
    rw [hprocs]
  refine ⟨hvalid, fun p => ?_, by rw [hguard]; exact hI.guard, ?_, fun p i hi => ?_, hK⟩
  · refine tiled_congr (hI.tiled p) (fun i hi => ?_) ⟨?_, ?_⟩
    · rw [heap_tabs_user _ _ hi, heap_tabs_user _ _ hi, hprocs]
    · simp only [World.heap, hprocs]
    · simp only [World.heap, hprocs]
  · refine hI.owned.survive id id (fun k q hk => ⟨hmaps k q hk, ?_⟩) hfree
    cases k with
    | user p i => simp only [groupOf, hblockAt, hprocs, id]
    | kernel r j => rfl
  · rw [hprocs, hblockAt]
    exact hlinked p i hi

/-! ## Reference counts -/

variable {b : Nat} {f : Nat → Nat} {s r : Smem} {objects : List Smap} {m : Smap}

theorem mem_setRefcount (hs : s ∈ (w.setRefcount b f).shmemList) :
    ∃ r ∈ w.shmemList, s.base = r.base ∧ s.size = r.size ∧
      s.refcount = if r.base = b then f r.refcount else r.refcount := by
  obtain ⟨r, hr, rfl⟩ := mem_map.mp hs
  refine ⟨r, hr, ?_⟩
  split_ifs <;> exact ⟨rfl, rfl, rfl⟩

theorem setRefcount_mem (hr : r ∈ w.shmemList) : ∃ s ∈ (w.setRefcount b f).shmemList, s.base = r.base := by
  refine ⟨_, mem_map.mpr ⟨r, hr, rfl⟩, ?_⟩
  split_ifs <;> rfl

theorem KernelInv.recount (hK : KernelInv process w)
    (hcounts : ∀ r ∈ w.shmemList, (if r.base = b then f r.refcount else r.refcount) =
      objects.countP fun m => m.parent = r.base) (hparents : ∀ m ∈ objects, ∃ r ∈ w.shmemList, r.base = m.parent)
    (hmaps : ∀ m ∈ objects, m.base = 0 ∨
      (w.procs (process m.slot)).heapBase / 4096 < m.base.toNat / 4096 ∧ m.base.toNat / 4096 ≤ topPage) :
    KernelInv process { w.setRefcount b f with objects := objects } := by
  refine ⟨hK.blocks, hK.apart, fun s hs => ?_, fun s hs => ?_, ?_, fun m hm => ?_, fun s hs => ?_, hmaps⟩
  · obtain ⟨r, hr, hbase, hsize, -⟩ := mem_setRefcount hs
    rw [hbase, hsize]
    exact hK.regions r hr
  · obtain ⟨r, hr, hbase, hsize, -⟩ := mem_setRefcount hs
    rw [hbase, hsize]
    exact hK.present r hr
  · have hbases : (w.setRefcount b f).shmemList.map (·.base) = w.shmemList.map (·.base) := by
      unfold World.setRefcount
      rw [map_map]
      refine map_congr_left fun r _ => ?_
      dsimp only [comp_apply]
      split_ifs <;> rfl
    rw [hbases]
    exact hK.distinct
  · obtain ⟨r, hr, hparent⟩ := hparents m hm
    obtain ⟨s, hs, hbase⟩ := setRefcount_mem (b := b) (f := f) hr
    exact ⟨s, hs, hbase.trans hparent⟩
  · obtain ⟨r, hr, hbase, -, hcount⟩ := mem_setRefcount hs
    rw [hcount, hbase]
    exact hcounts r hr

theorem maps_setRefcount (k : Place) (q : Nat) (hk : Maps { w.setRefcount b f with objects := objects } k q) :
    Maps w k q := by
  cases k with
  | user p i => exact hk
  | kernel r j =>
    obtain ⟨⟨s, hs, hbase, hj⟩, hentry⟩ := hk
    obtain ⟨r', hr', hbase', hsize', -⟩ := mem_setRefcount hs
    exact ⟨⟨r', hr', hbase'.symm.trans hbase, by rwa [← hsize']⟩, hentry⟩

theorem Inv.recount (hI : Inv process w ls reg) (hK : KernelInv process { w.setRefcount b f with objects := objects })
    (hlinked : ∀ p i, i < topPage → Present ((w.procs p).tabs i) → Shared ((w.procs p).tabs i) →
      Linked process objects p (reg p i) (w.blockAt ls p i)) :
    Inv process { w.setRefcount b f with objects := objects } ls reg :=
  hI.fewer_places rfl hI.valid rfl maps_setRefcount (fun _ hq => .inl hq) hlinked hK

theorem Inv.add_map (hI : Inv process w ls reg) (hparent : ∃ r ∈ w.shmemList, r.base = m.parent)
    (hmaps : m.base = 0 ∨
      (w.procs (process m.slot)).heapBase / 4096 < m.base.toNat / 4096 ∧ m.base.toNat / 4096 ≤ topPage) :
    Inv process { w.setRefcount m.parent (· + 1) with objects := m :: w.objects } ls reg := by
  refine hI.recount (hI.kernel.recount (fun r hr => ?_) (fun m' hm' => ?_) fun m' hm' => ?_)
    fun p i hi hpresent hshared => ?_
  · rw [countP_cons, hI.kernel.counts r hr]
    by_cases heq : r.base = m.parent
    · rw [if_pos heq, if_pos (decide_eq_true heq.symm)]
    · rw [if_neg heq, if_neg (by simpa using fun h => heq h.symm), Nat.add_zero]
  · rcases mem_cons.mp hm' with rfl | hm'
    · exact hparent
    · exact hI.kernel.parents m' hm'
  · rcases mem_cons.mp hm' with rfl | hm'
    · exact hmaps
    · exact hI.kernel.maps m' hm'
  · obtain ⟨m', hm', hlink⟩ := hI.linked p i hi hpresent hshared
    exact ⟨m', mem_cons_of_mem _ hm', hlink⟩

/-! ## The end of a map -/

theorem release_pages_spec (n : Nat) (w : World) (esi : Nat) :
    ∃ b, releasePages n w esi = { w with kernelTabs := clear w.kernelTabs esi n, bitmap := b } ∧
      Gave w.bitmap (Selected Present w.kernelTabs esi n) b := by
  induction n generalizing w esi with
  | zero =>
    have hnone : clear w.kernelTabs esi 0 = w.kernelTabs := funext fun i => if_neg (by omega)
    exact ⟨w.bitmap, by rw [hnone]; rfl,
      (Gave.refl _).congr fun q => iff_false_intro (not_selected_zero Present w.kernelTabs esi q)⟩
  | succ n ih =>
    let e := w.kernelTabs esi
    obtain ⟨b, hloop, hgave⟩ := ih { w with
      kernelTabs := update w.kernelTabs esi 0
      bitmap := if Present e then (releaseBitmapPageModeB w.bitmap (BitVec.ofNat 32 e >>> 12)).1 else w.bitmap } (esi + 1)
    refine ⟨b, ?_, (release_entry_gave w.bitmap e).trans hgave fun q => ?_⟩
    · have hstep : releasePages (n + 1) w esi = releasePages n _ (esi + 1) := rfl
      rw [hstep]
      refine Eq.trans ?_ (hloop.trans ?_)
      · congr 1
        split_ifs <;> rfl
      · congr 1
        funext i
        simp only [clear, update_apply]
        split_ifs <;> first | rfl | omega
    · rw [selected_first]
      exact or_congr_right (selected_congr (fun i hlo _ => update_of_ne (by omega) _ _) q).symm

theorem kernel_free_spec {b : Nat × Nat} {base : Nat} (hblocks : ∀ b ∈ w.kernelBlocks, 0 < b.2)
    (hapart : w.kernelBlocks.Pairwise Apart) (hb : b ∈ w.kernelBlocks) (hbase : base / 4096 = b.1) :
    ∃ bitmap, kernelFree w base = { w with
        bitmap := bitmap
        kernelTabs := clear w.kernelTabs b.1 b.2
        kernelBlocks := w.kernelBlocks.erase b } ∧
      Gave w.bitmap (Selected Present w.kernelTabs b.1 b.2) bitmap := by
  have hfind : w.kernelBlocks.find? (fun b' => b'.1 = base / 4096) = some b := by
    cases hf : w.kernelBlocks.find? (fun b' => b'.1 = base / 4096) with
    | none => exact absurd (decide_eq_true hbase.symm) (List.find?_eq_none.mp hf b hb)
    | some b' =>
      have hmem := mem_of_find?_eq_some hf
      have hstart := List.find?_some hf
      rw [decide_eq_true_eq] at hstart
      by_contra hne
      have happ := hapart.forall hmem hb fun heq => hne (by rw [heq])
      have hpos := hblocks b hb
      have hpos' := hblocks b' hmem
      unfold Apart at happ
      omega
  obtain ⟨bitmap, hloop, hgave⟩ := release_pages_spec b.2 w b.1
  refine ⟨bitmap, ?_, hgave⟩
  unfold kernelFree
  rw [hfind]
  simp only [hloop]

theorem filter_setRefcount (l : List Smem) (b : Nat) (f : Nat → Nat) :
    (l.map fun r => if r.base = b then { r with refcount := f r.refcount } else r).filter (fun s => s.base ≠ b) =
      l.filter fun s => s.base ≠ b := by
  induction l with
  | nil => rfl
  | cons r l ih =>
    rw [map_cons, filter_cons, filter_cons, ih]
    by_cases hr : r.base = b
    · simp [hr]
    · simp [hr]

def World.withoutRegion (w : World) (r : Smem) (m : Smap) (bitmap : PhysBitmap) : World where
  bitmap := bitmap
  procs := w.procs
  kernelTabs := clear w.kernelTabs (r.base / 4096) (r.size / 4096)
  kernelBlocks := w.kernelBlocks.erase (r.base / 4096, r.size / 4096)
  shmemList := w.shmemList.filter fun s => s.base ≠ r.base
  objects := w.objects.erase m

section

variable (hK : KernelInv process w)
include hK

theorem destroy_smap_spec (hm : m ∈ w.objects) :
    ∃ r ∈ w.shmemList, r.base = m.parent ∧ ((r.refcount ≠ 1 ∧ destroySmap w m =
        { w.setRefcount r.base (· - 1) with objects := w.objects.erase m }) ∨
      (r.refcount = 1 ∧ ∃ bitmap, destroySmap w m = w.withoutRegion r m bitmap ∧
        Gave w.bitmap (Selected Present w.kernelTabs (r.base / 4096) (r.size / 4096)) bitmap)) := by
  obtain ⟨r0, hr0, hparent⟩ := hK.parents m hm
  obtain ⟨r, hfind⟩ : ∃ r, findRegion w m.parent = some r := by
    cases hf : findRegion w m.parent with
    | none => exact absurd (decide_eq_true hparent) (List.find?_eq_none.mp hf r0 hr0)
    | some r => exact ⟨r, rfl⟩
  have hr : r ∈ w.shmemList := mem_of_find?_eq_some hfind
  have hbase := List.find?_some hfind
  rw [decide_eq_true_eq] at hbase
  refine ⟨r, hr, hbase, ?_⟩
  unfold destroySmap
  simp only [hfind]
  by_cases hone : r.refcount = 1
  · right
    refine ⟨hone, ?_⟩
    rw [if_neg (not_not.mpr hone)]
    let w1 : World := { w.setRefcount r.base (· - 1) with
      shmemList := (w.setRefcount r.base (· - 1)).shmemList.filter fun s => s.base ≠ r.base }
    obtain ⟨bitmap, hfree, hgave⟩ := kernel_free_spec (w := w1) (fun b hb => (hK.blocks b hb).2.1) hK.apart
      (hK.regions r hr).2.2 rfl
    refine ⟨bitmap, ?_, hgave⟩
    rw [show kernelFree w1 r.base = _ from hfree]
    congr 1
    exact filter_setRefcount w.shmemList r.base (· - 1)
  · left
    rw [if_pos hone]
    exact ⟨hone, rfl⟩

theorem KernelInv.clear_other (hr : r ∈ w.shmemList) (hs : s ∈ w.shmemList)
    (hne : s.base ≠ r.base) {j : Nat} (hj : j < s.size / 4096) :
    clear w.kernelTabs (r.base / 4096) (r.size / 4096) (s.base / 4096 + j) = w.kernelTabs (s.base / 4096 + j) := by
  obtain ⟨hralign, -, hrblock⟩ := hK.regions r hr
  obtain ⟨hsalign, -, hsblock⟩ := hK.regions s hs
  have hapart := hK.apart.forall hsblock hrblock fun heq => by
    have hstart := congrArg Prod.fst heq
    omega
  unfold Apart at hapart
  exact if_neg (by omega)

theorem KernelInv.erase_counts (hm : m ∈ w.objects) (hr : r.base = m.parent)
    (hs : s ∈ w.shmemList) :
    (w.objects.erase m).countP (fun m' => m'.parent = s.base) =
      if s.base = r.base then s.refcount - 1 else s.refcount := by
  rw [countP_erase, ← hK.counts s hs]
  by_cases heq : s.base = r.base
  · rw [if_pos heq, if_pos ⟨hm, decide_eq_true (hr.symm.trans heq.symm)⟩]
  · rw [if_neg heq, if_neg (fun hc => heq ((of_decide_eq_true hc.2).symm.trans hr.symm)), Nat.sub_zero]

theorem KernelInv.last_map (hm : m ∈ w.objects) (hr : r ∈ w.shmemList)
    (hbase : r.base = m.parent) (hone : r.refcount = 1) : ∀ m' ∈ w.objects.erase m, m'.parent ≠ r.base := by
  have hcount := hK.erase_counts hm hbase hr
  rw [if_pos rfl, hone, countP_eq_zero] at hcount
  intro m' hm' heq
  exact hcount m' hm' (decide_eq_true heq)

theorem KernelInv.drop_region {bitmap : PhysBitmap} (hm : m ∈ w.objects)
    (hr : r ∈ w.shmemList) (hbase : r.base = m.parent) (hone : r.refcount = 1) :
    KernelInv process (w.withoutRegion r m bitmap) := by
  have hmem : ∀ s, s ∈ w.shmemList.filter (fun s => s.base ≠ r.base) ↔ s ∈ w.shmemList ∧ s.base ≠ r.base := by
    intro s
    rw [mem_filter, decide_eq_true_eq]
  refine ⟨fun b hb => hK.blocks b (mem_of_mem_erase hb), hK.apart.sublist erase_sublist, fun s hs => ?_,
    fun s hs j hj => ?_, hK.distinct.sublist (filter_sublist.map _), fun m' hm' => ?_, fun s hs => ?_,
    fun m' hm' => hK.maps m' (mem_of_mem_erase hm')⟩
  · obtain ⟨hs, hne⟩ := (hmem s).mp hs
    obtain ⟨hsalign, hssize, hsblock⟩ := hK.regions s hs
    have hralign := (hK.regions r hr).1
    refine ⟨hsalign, hssize, (mem_erase_of_ne fun heq => ?_).mpr hsblock⟩
    have hstart := congrArg Prod.fst heq
    omega
  · obtain ⟨hs, hne⟩ := (hmem s).mp hs
    dsimp only [World.withoutRegion]
    rw [hK.clear_other hr hs hne hj]
    exact hK.present s hs j hj
  · obtain ⟨s, hs, hparent⟩ := hK.parents m' (mem_of_mem_erase hm')
    exact ⟨s, (hmem s).mpr ⟨hs, fun heq => hK.last_map hm hr hbase hone m' hm' (hparent.symm.trans heq)⟩, hparent⟩
  · obtain ⟨hs, hne⟩ := (hmem s).mp hs
    dsimp only [World.withoutRegion]
    rw [hK.erase_counts hm hbase hs, if_neg hne]

end

theorem Inv.destroy_smap (hI : Inv process w ls reg) (hm : m ∈ w.objects)
    (hnone : ∀ i, i < topPage → Present ((w.procs (process m.slot)).tabs i) →
      Shared ((w.procs (process m.slot)).tabs i) → m.base.toNat / 4096 ≠ w.blockAt ls (process m.slot) i + 1) :
    Inv process (destroySmap w m) ls reg := by
  have hK := hI.kernel
  have hlinked : ∀ p i, i < topPage → Present ((w.procs p).tabs i) → Shared ((w.procs p).tabs i) →
      Linked process (w.objects.erase m) p (reg p i) (w.blockAt ls p i) := by
    intro p i hi hpresent hshared
    obtain ⟨m', hm', rfl, hlink⟩ := hI.linked p i hi hpresent hshared
    refine ⟨m', (mem_erase_of_ne ?_).mpr hm', rfl, hlink⟩
    rintro rfl
    exact hnone i hi hpresent hshared hlink.2
  obtain ⟨r, hr, hbase, ⟨-, heq⟩ | ⟨hone, bitmap, heq, hgave⟩⟩ := destroy_smap_spec hK hm
  · rw [heq]
    refine hI.recount (hK.recount (fun s hs => (hK.erase_counts hm hbase hs).symm) (fun m' hm' => ?_) fun m' hm' => ?_)
      hlinked
    · exact hK.parents m' (mem_of_mem_erase hm')
    · exact hK.maps m' (mem_of_mem_erase hm')
  rw [heq]
  have hplace := (hK.blocks _ (hK.regions r hr).2.2).1
  have hmaps : ∀ k q, Maps (w.withoutRegion r m bitmap) k q → Maps w k q ∧ ∀ j, k ≠ .kernel r.base j := by
    intro k q hk
    cases k with
    | user p i => exact ⟨hk, nofun⟩
    | kernel r' j =>
      obtain ⟨⟨s, hs, rfl, hj⟩, hpresent, hpage⟩ := hk
      dsimp only [World.withoutRegion] at hs hpresent hpage
      rw [mem_filter, decide_eq_true_eq] at hs
      rw [hK.clear_other hr hs.1 hs.2 hj] at hpresent hpage
      refine ⟨⟨⟨s, hs.1, rfl, hj⟩, hpresent, hpage⟩, fun j' heq => ?_⟩
      injection heq with heq
      exact hs.2 heq
  refine hI.fewer_places rfl (hgave.valid hI.valid) (if_neg (by unfold topPage; omega)) (fun k q hk => (hmaps k q hk).1)
    (fun q hq => ?_) hlinked (hK.drop_region hm hr hbase hone)
  rcases (hgave.free q).mp hq with hold | ⟨i, hlo, hhi, hpresent, hpage⟩
  · exact .inl hold
  -- The page was one of the region, and what is left of the region is nothing.
  refine .inr fun k hk => ?_
  obtain ⟨hold, hother⟩ := hmaps k q hk
  have hregion : Maps w (.kernel r.base (i - r.base / 4096)) q := by
    refine ⟨⟨r, hr, rfl, by omega⟩, ?_⟩
    rw [show r.base / 4096 + (i - r.base / 4096) = i by omega]
    exact ⟨hpresent, hpage⟩
  have hgroup : groupOf w ls reg k = .region r.base := hI.owned.together k _ q hold hregion
  cases k with
  | kernel r' j =>
    injection hgroup with heq
    exact hother j (by rw [heq])
  | user p i' =>
    simp only [groupOf] at hgroup
    split_ifs at hgroup with hshared
    injection hgroup with heq
    obtain ⟨m', hm', -, hparent, -⟩ := hlinked p i' hold.1 hold.2.1 hshared
    exact hK.last_map hm hr hbase hone m' hm' (hparent.trans heq)

end Kolibri.Shmem
