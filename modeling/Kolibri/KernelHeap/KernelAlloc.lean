import Kolibri.KernelHeap.Runs
import Kolibri.Shmem.Code

/-! # `kernel_alloc`

The whole eights of pages as one run of frames, and the rest page by page.
-/

namespace Kolibri.KernelHeap

open Bitmap Paging Function
open UserHeap (memBlockFree pageAlign)
open Shmem (commitPages)

structure Kernel where
  space : Space
  bitmap : PhysBitmap
  tabs : Nat → Nat

variable (pteMask : BitVec 32)

/-- `linAddr` is a page. The result is false if there is no run of frames. -/
def kernelAllocRun (k : Kernel) (linAddr ebx : Nat) : Kernel × Bool :=
  if ebx = 0 then (k, true)
  else
    let (bitmap, eax) := allocPages k.bitmap (BitVec.ofNat 32 ebx)
    let k := { k with bitmap }
    if eax = 0 then (k, false)
    else ({ k with tabs := commitPages pteMask k.tabs (eax ||| (pgGlobal ||| pgSwr)) linAddr ebx }, true)

def kernelAllocTail (pteMask : BitVec 32) : Nat → Kernel → Nat → Kernel × Bool
  | 0, k, _ => (k, true)
  | ebx + 1, k, edx =>
    let (bitmap, eax) := allocPage k.bitmap
    let k := { k with bitmap }
    if eax = 0 then (k, false)
    else
      let entry := (mapPage pteMask eax (pgGlobal ||| pgSwr)).toNat
      kernelAllocTail pteMask ebx { k with tabs := update k.tabs edx entry } (edx + 1)

def kernelAllocPages (k : Kernel) (linAddr pagesCount : Nat) : Kernel × Bool :=
  let (k, done) := kernelAllocRun pteMask k linAddr (pagesCount / 8 * 8)
  if done then kernelAllocTail pteMask (pagesCount % 8) k (linAddr + pagesCount / 8 * 8) else (k, false)

def kernelAlloc (k : Kernel) (size : BitVec 32) : Option (Kernel × Nat) :=
  let size := rounded size
  if size = 0 then some (k, 0)
  else
    (allocKernelSpace k.space (BitVec.ofNat 32 size)).map fun (space, linAddr) =>
      let k := { k with space }
      if linAddr = 0 then (k, 0)
      else
        let (k, done) := kernelAllocPages pteMask k (linAddr / 4096) (size / 4096)
        if done then (k, linAddr) else (k, 0)

/-! ## Frames -/

def takesPages : Nat → PhysBitmap → Bool
  | 0, _ => true
  | n + 1, b => (allocPage b).2 ≠ 0 && takesPages n (allocPage b).1

def PagesSuffice (b : PhysBitmap) (pages : Nat) : Prop :=
  if pages / 8 = 0 then takesPages (pages % 8) b
  else (allocPages b (BitVec.ofNat 32 (pages / 8 * 8))).2 ≠ 0 ∧
    takesPages (pages % 8) (allocPages b (BitVec.ofNat 32 (pages / 8 * 8))).1

instance (b : PhysBitmap) (pages : Nat) : Decidable (PagesSuffice b pages) := by
  unfold PagesSuffice
  infer_instance

theorem kernel_alloc_tail_spec (ebx : Nat) (k : Kernel) (edx : Nat) :
    (kernelAllocTail pteMask ebx k edx).2 = takesPages ebx k.bitmap ∧
      (kernelAllocTail pteMask ebx k edx).1.space = k.space := by
  induction ebx generalizing k edx with
  | zero => exact ⟨rfl, rfl⟩
  | succ ebx ih =>
    unfold kernelAllocTail takesPages
    by_cases heax : (allocPage k.bitmap).2 = 0#32
    · simp [heax]
    · simp [heax, ih]

theorem kernel_alloc_pages_spec (k : Kernel) (linAddr pages : Nat) :
    ((kernelAllocPages pteMask k linAddr pages).2 = true ↔ PagesSuffice k.bitmap pages) ∧
      (kernelAllocPages pteMask k linAddr pages).1.space = k.space := by
  unfold kernelAllocPages kernelAllocRun PagesSuffice
  by_cases hrun : pages / 8 = 0
  · simp [hrun, kernel_alloc_tail_spec]
  · by_cases heax : (allocPages k.bitmap (BitVec.ofNat 32 (pages / 8 * 8))).2 = 0#32
    · simp [hrun, heax]
    · simp [hrun, heax, kernel_alloc_tail_spec]

/-! ## A failed call -/

theorem rounded_ofNat (size : BitVec 32) : rounded (BitVec.ofNat 32 (rounded size)) = rounded size := by
  unfold rounded pageAlign
  rw [BitVec.toNat_ofNat]
  omega

def SpaceRefused (h : Space) (size : Nat) : Prop := ∃ h', allocKernelSpace h (BitVec.ofNat 32 size) = some (h', 0)

variable {k : Kernel} {chain spare : List Node}

theorem kernel_alloc_spec (V : Valid k.space chain spare) (size : BitVec 32) :
    ∃ k' eax, kernelAlloc pteMask k size = some (k', eax) ∧
      (((rounded size = 0 ∨ SpaceRefused k.space (rounded size)) ∧ k' = k ∧ eax = 0) ∨
        (rounded size ≠ 0 ∧ ¬ SpaceRefused k.space (rounded size) ∧
          k'.space.heapFree + rounded size = k.space.heapFree ∧
          (eax ≠ 0 ↔ PagesSuffice k.bitmap (rounded size / 4096)))) := by
  unfold kernelAlloc
  by_cases hzero : rounded size = 0
  · exact ⟨k, 0, by simp [hzero], .inl ⟨.inl hzero, rfl, rfl⟩⟩
  simp only [if_neg hzero]
  have hround : rounded (BitVec.ofNat 32 (rounded size)) = rounded size := rounded_ofNat size
  rcases alloc_kernel_space_spec V (BitVec.ofNat 32 (rounded size)) hround hzero with
    ⟨hres, -⟩ | ⟨h', chain', spare', x, hx, hres, -, -, -, -, hfree, -⟩
  · rw [hres]
    exact ⟨k, 0, rfl, .inl ⟨.inr ⟨k.space, hres⟩, rfl, rfl⟩⟩
  have hpos : k.space.base x ≠ 0 := by
    have hlo := (V.mem_spec hx).2.2.2.1
    have hstart : heapStart = 0x80820000 := rfl
    omega
  have hroom : ¬ SpaceRefused k.space (rounded size) := by
    rintro ⟨h'', hres'⟩
    rw [hres] at hres'
    exact hpos (Prod.mk.inj (Option.some.inj hres')).2
  obtain ⟨hdone, hspace⟩ := kernel_alloc_pages_spec pteMask { k with space := h' } (k.space.base x / 4096) (rounded size / 4096)
  rw [hres]
  simp only [Option.map_some, if_neg hpos]
  by_cases hsuff : PagesSuffice k.bitmap (rounded size / 4096)
  · rw [if_pos (hdone.mpr hsuff)]
    exact ⟨_, _, rfl, .inr ⟨hzero, hroom, by rw [hspace, hfree], fun _ => hsuff, fun _ => hpos⟩⟩
  · rw [if_neg fun hd => hsuff (hdone.mp hd)]
    exact ⟨_, _, rfl, .inr ⟨hzero, hroom, by rw [hspace, hfree], fun hne => absurd rfl hne, fun hs => absurd hs hsuff⟩⟩

theorem start_not_refused (h : Space) (pages : Nat) {size : BitVec 32} (hsize : rounded size ≠ 0)
    (hle : rounded size ≤ (start h pages).space.heapSize) : ¬ SpaceRefused (start h pages).space (rounded size) := by
  obtain ⟨V, hno, -⟩ := init_kernel_heap_valid h pages
  have hround : rounded (BitVec.ofNat 32 (rounded size)) = rounded size := rounded_ofNat size
  obtain ⟨n, hn, hf, -, hsz⟩ := V.single (by show 0 < (start h pages).space.heapSize; omega) hno
  have hspare : (start h pages).space.nextMemblock ≠ .null := by
    rw [show (start h pages).space.nextMemblock = .block 3 from V.spares.1]
    simp
  rintro ⟨h', hres'⟩
  rcases alloc_kernel_space_spec V (BitVec.ofNat 32 (rounded size)) hround hsize with
    ⟨-, hsmall⟩ | ⟨h'', chain', spare', x, hx, hres, -⟩
  · have hlt := hsmall hspare n (hn ▸ List.mem_singleton_self n) hf
    change (start h pages).space.size n < _ at hlt
    change (start h pages).space.size n = (start h pages).space.heapSize at hsz
    omega
  · have hzero := (Prod.mk.inj (Option.some.inj (hres.symm.trans hres'))).2
    have hlo := (V.mem_spec hx).2.2.2.1
    have hstart : heapStart = 0x80820000 := rfl
    omega

/-- A failed call is undone if and only if it fails before it has any address space. -/
theorem kernel_alloc_undone_iff (pteMask : BitVec 32) (k : Kernel) (chain spare : List Node)
    (V : Valid k.space chain spare) (size : BitVec 32) :
    (∃ k' eax, kernelAlloc pteMask k size = some (k', eax) ∧ (eax = 0 → k' = k)) ↔
      rounded size = 0 ∨ SpaceRefused k.space (rounded size) ∨ PagesSuffice k.bitmap (rounded size / 4096) := by
  obtain ⟨k', eax, hres, hcase⟩ := kernel_alloc_spec pteMask V size
  rcases hcase with ⟨hearly, rfl, rfl⟩ | ⟨hzero, hroom, hfree, hsuff⟩
  · refine ⟨fun _ => ?_, fun _ => ⟨_, _, hres, fun _ => rfl⟩⟩
    rcases hearly with hz | hr
    · exact .inl hz
    · exact .inr (.inl hr)
  constructor
  · rintro ⟨k'', eax', hres', hkeep⟩
    obtain ⟨rfl, rfl⟩ := Prod.mk.inj (Option.some.inj (hres.symm.trans hres'))
    refine .inr (.inr (hsuff.mp fun heax => ?_))
    rw [hkeep heax] at hfree
    omega
  · rintro (hz | hr | hs)
    · exact absurd hz hzero
    · exact absurd hr hroom
    · exact ⟨k', eax, hres, fun heax => absurd heax (hsuff.mpr hs)⟩

/-- A new heap on a machine that has no free frame left. -/
def noFrames : Kernel where
  space := (start blankSpace 0x8000).space
  bitmap := { map := fun _ => 0, pageStart := 0, pageEnd := 0x1000, pagesFree := 1 }
  tabs _ := 0

theorem kernel_alloc_undone_no_frames : Valid noFrames.space [.block 1] spareBlocks ∧
    ((∃ k' eax, kernelAlloc (pteValidMask true true) noFrames 1 = some (k', eax) ∧ (eax = 0 → k' = noFrames)) ↔
      rounded 1 = 0 ∨ SpaceRefused noFrames.space (rounded 1) ∨ PagesSuffice noFrames.bitmap (rounded 1 / 4096)) :=
  ⟨(init_kernel_heap_valid blankSpace 0x8000).1,
    kernel_alloc_undone_iff (pteValidMask true true) noFrames [.block 1] spareBlocks
      (init_kernel_heap_valid blankSpace 0x8000).1 1⟩

/-- One page is asked for. The call returns 0 and keeps 4096 bytes of address space. -/
theorem kernel_alloc_keeps_space : ¬ ∀ (k : Kernel) (chain spare : List Node) (size : BitVec 32),
    Valid k.space chain spare →
      ∃ k' eax, kernelAlloc (pteValidMask true true) k size = some (k', eax) ∧ (eax = 0 → k' = k) := by
  intro hall
  have V : Valid noFrames.space [.block 1] spareBlocks := (init_kernel_heap_valid blankSpace 0x8000).1
  obtain ⟨k', eax, hres, hkeep⟩ := hall noFrames _ _ 1 V
  obtain ⟨k'', eax'', hres', hcase⟩ := kernel_alloc_spec (pteValidMask true true) V 1
  obtain ⟨rfl, rfl⟩ := Prod.mk.inj (Option.some.inj (hres.symm.trans hres'))
  have hone : rounded 1 = 4096 := by decide
  have hroom : ¬ SpaceRefused noFrames.space (rounded 1) := by
    refine start_not_refused blankSpace 0x8000 (by decide) ?_
    rw [start_heapSize]
    decide
  rcases hcase with ⟨hz | hr, -⟩ | ⟨-, -, hfree, hsuff⟩
  · exact absurd hz (by decide)
  · exact hroom hr
  · have heax : eax = 0 := by
      by_contra hne
      exact absurd (hsuff.mp hne) (by decide)
    rw [hkeep heax, hone] at hfree
    omega

end Kolibri.KernelHeap
