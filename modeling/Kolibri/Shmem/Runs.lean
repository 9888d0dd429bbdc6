import Kolibri.Shmem.Calls
import Kolibri.Lib.Run

/-! # Runs of the memory calls and page faults of any processes -/

namespace Kolibri.Shmem

open Bitmap Paging UserHeap Tiling Ownership Run Function

inductive Request
  | userAlloc (size : BitVec 32)
  | userFree (base : BitVec 32)
  | userRealloc (eax ebx : BitVec 32)
  | userUnmap (base offset size : BitVec 32)
  | userRing (size : BitVec 32)
  | shmemOpen (name : Option (List (BitVec 8))) (size access : BitVec 32) (answers : Answers)
  | shmemClose (name : Option (List (BitVec 8)))
  | pageFault (page : Nat)

def perform (pteMask : BitVec 32) (w : World) (slot p : Nat) : Request → Option World
  | .userAlloc size => (w.call p (userAlloc · size)).map (·.1)
  | .userFree base => (w.call p (userFree · base)).map (·.1)
  | .userRealloc eax ebx => (w.call p (userRealloc · eax ebx)).map (·.1)
  | .userUnmap base offset size => (w.call p fun h => some (userUnmap h base offset size)).map (·.1)
  | .userRing size => (w.call p (userRing pteMask · size)).map (·.1)
  | .shmemOpen name size access answers => (shmemOpen pteMask w slot p name size access answers).map (·.1)
  | .shmemClose name => shmemClose w slot p name
  | .pageFault page => (w.call p fun h => some (pageFault pteMask h page, 0)).map (·.1)

def step (pteMask : BitVec 32) (process : Nat → Nat) (w : World) (op : Nat × Request) : World × Bool :=
  match perform pteMask w op.1 (process op.1) op.2 with
  | none => (w, false)
  | some w' => (w', true)

def Fits (h : Heap) : Request → Prop
  | .userAlloc size => size.toNat ≤ 0xFFFFE000
  | .userFree base => base = 0 ∨ HeaderOk h (headerIndex (base.toNat / 4096))
  | .userRealloc eax ebx => ebx.toNat ≤ 0xFFFFE000 ∧ (eax = 0 ∨ HeaderOk h ((eax - 4096).toNat / 4096) ∧
      ReallocOk h ((eax - 4096).toNat / 4096) (payloadPages ebx.toNat))
  | .userUnmap base offset size => base = 0 ∨ HeaderOk h (headerIndex (base.toNat / 4096)) ∧
      unmapCount size ≠ 0 ∧ UnmapOk h (unmapStart base offset) (unmapCount size)
  | .userRing size => size.toNat < 2 ^ 31
  | .pageFault page => page < topPage
  | _ => True

instance (h : Heap) : (r : Request) → Decidable (Fits h r)
  | .userAlloc _ => inferInstanceAs (Decidable (_ ≤ _))
  | .userFree _ => inferInstanceAs (Decidable (_ ∨ _))
  | .userRealloc _ _ => inferInstanceAs (Decidable (_ ∧ _))
  | .userUnmap _ _ _ => inferInstanceAs (Decidable (_ ∨ _))
  | .userRing _ => inferInstanceAs (Decidable (_ < _))
  | .pageFault _ => inferInstanceAs (Decidable (_ < _))
  | .shmemOpen _ _ _ _ => inferInstanceAs (Decidable True)
  | .shmemClose _ => inferInstanceAs (Decidable True)

/-! ## What every request keeps -/

def WorldInv (process : Nat → Nat) (w : World) : Prop := ∃ ls reg, Inv process w ls reg

variable {process : Nat → Nat} {w : World}

def Performed (process : Nat → Nat) (r : Option World) : Prop := ∃ w', r = some w' ∧ WorldInv process w'

theorem performed_call {p : Nat} {reg : Nat → Nat → Nat} (f : Heap → Option (Heap × BitVec 32))
    (hk : Kept process w p reg (f (w.heap p))) : Performed process ((w.call p f).map (·.1)) := by
  obtain ⟨h', eax, ls', hcall, hI⟩ := hk
  refine ⟨w.store p h', ?_, ls', reg, hI⟩
  unfold World.call
  rw [hcall]
  rfl

theorem perform_inv (pat pge : Bool) (hI : WorldInv process w) (slot : Nat) (r : Request)
    (hfits : Fits (w.heap (process slot)) r) :
    Performed process (perform (pteValidMask pat pge) w slot (process slot) r) := by
  obtain ⟨ls, reg, hI⟩ := hI
  cases r with
  | userAlloc size => exact performed_call (userAlloc · size) (hI.user_alloc (process slot) hfits)
  | userFree base =>
    obtain ⟨h', eax, l', hcall, -, hI', -⟩ := hI.user_free (process slot) hfits
    exact performed_call (userFree · base) ⟨h', eax, _, hcall, hI'⟩
  | userRealloc eax ebx =>
    exact performed_call (userRealloc · eax ebx) (hI.user_realloc (process slot) hfits.1 hfits.2)
  | userUnmap base offset size =>
    exact performed_call (fun h => some (userUnmap h base offset size)) (hI.user_unmap (process slot) hfits)
  | userRing size =>
    exact performed_call (userRing (pteValidMask pat pge) · size) (hI.user_ring pat pge (process slot) hfits)
  | shmemOpen name size access answers =>
    obtain ⟨w', eax, edx, ls', reg', hcall, hI'⟩ :=
      hI.shmem_open pat pge (rfl : process slot = process slot) name size access answers
    refine ⟨w', ?_, ls', reg', hI'⟩
    show (shmemOpen _ w slot _ name size access answers).map (·.1) = some w'
    rw [hcall]
    rfl
  | shmemClose name =>
    obtain ⟨w', ls', hcall, hI'⟩ := hI.shmem_close (rfl : process slot = process slot) name
    exact ⟨w', hcall, ls', reg, hI'⟩
  | pageFault page =>
    exact performed_call (fun h => some (pageFault (pteValidMask pat pge) h page, 0))
      (hI.page_fault pat pge (process slot) hfits)

theorem step_inv (pat pge : Bool) (hI : WorldInv process w) (op : Nat × Request)
    (hfits : Fits (w.heap (process op.1)) op.2) :
    WorldInv process (step (pteValidMask pat pge) process w op).1 ∧
      (step (pteValidMask pat pge) process w op).2 = true := by
  obtain ⟨w', hcall, hI'⟩ := perform_inv pat pge hI op.1 op.2 hfits
  unfold step
  rw [hcall]
  exact ⟨hI', rfl⟩

/-! ## From `init_heap` on -/

def World.initialised (w : World) : World :=
  { w with procs := fun p =>
      let h := (initHeap (w.heap p)).1
      ⟨h.tabs, h.heapBase, h.heapTop, h.memUsed⟩ }

/-- The pages of each program are its own, and there are no regions. -/
structure Boot (w : World) : Prop where
  valid : w.bitmap.Valid
  top : ∀ p, (w.procs p).heapTop = 0
  small : ∀ p, (w.procs p).memUsed.toNat ≤ 0x7FFFF000
  empty : ∀ p i, imagePages (w.heap p) < i → i < topPage → (w.procs p).tabs i = 0
  image : ∀ p i, i < imagePages (w.heap p) → Present ((w.procs p).tabs i) →
    ¬ Shared ((w.procs p).tabs i) ∧ w.bitmap.free (pageOf ((w.procs p).tabs i)) = false
  alone : ∀ p p' i i', i < imagePages (w.heap p) → i' < imagePages (w.heap p') → Present ((w.procs p).tabs i) →
    Present ((w.procs p').tabs i') → pageOf ((w.procs p).tabs i) = pageOf ((w.procs p').tabs i') → p = p' ∧ i = i'
  guard : w.kernelTabs topPage &&& memBlockUsed = 0
  blocks : ∀ b ∈ w.kernelBlocks, 0x80800 ≤ b.1 ∧ 0 < b.2 ∧ b.1 + b.2 ≤ 0xFDC00
  apart : w.kernelBlocks.Pairwise Apart
  shmemList : w.shmemList = []
  objects : w.objects = []

theorem initialised_tabs (hw : Boot w) (p : Nat) :
    imagePages (w.heap p) < 0x80000 ∧ (w.initialised.procs p).heapBase / 4096 = imagePages (w.heap p) ∧
      ∀ i, (w.initialised.procs p).tabs i =
        if i = imagePages (w.heap p) then hdr .free (0x80000 - imagePages (w.heap p)) else (w.heap p).tabs i := by
  obtain ⟨hlt, heq⟩ := init_heap_spec (h := w.heap p) (hw.top p) (hw.small p)
  unfold World.initialised
  dsimp only
  rw [heq]
  refine ⟨hlt, Nat.mul_div_cancel_left _ (by decide), fun i => ?_⟩
  dsimp only
  rw [update_apply]

theorem initialised_present (hw : Boot w) {p i : Nat} (hi : i < topPage)
    (hpresent : Present ((w.initialised.procs p).tabs i)) :
    i < imagePages (w.heap p) ∧ (w.initialised.procs p).tabs i = (w.procs p).tabs i := by
  obtain ⟨-, -, htabs⟩ := initialised_tabs hw p
  rw [htabs] at hpresent ⊢
  split_ifs at hpresent ⊢ with hhead
  · exact absurd hpresent (hdr_not_present _ _)
  rw [heap_tabs_user w p hi] at hpresent ⊢
  rcases Nat.lt_or_ge (imagePages (w.heap p)) i with hlt | hge
  · rw [hw.empty p i hlt hi] at hpresent
    exact absurd hpresent not_present_zero
  · exact ⟨by omega, rfl⟩

theorem boot_inv (hw : Boot w) : WorldInv process w.initialised := by
  have htiled : ∀ p, Tiled Clean (w.initialised.heap p) [(.free, 0x80000 - imagePages (w.heap p))] := by
    intro p
    refine tiled_congr (init_heap_tiled (hw.top p) (hw.small p) fun i hlo hhi => ?_) (fun i hi => ?_) ⟨rfl, rfl⟩
    · rw [heap_tabs_user w p hhi, hw.empty p i hlo hhi]
      exact clean_free
    · exact heap_tabs_user w.initialised p hi
  have hgroup : ∀ p i, i < topPage → Present ((w.initialised.procs p).tabs i) →
      groupOf w.initialised (fun p => [(.free, 0x80000 - imagePages (w.heap p))]) (fun _ _ => 0) (.user p i) =
        .block p i := by
    intro p i hi hpresent
    obtain ⟨hlow, hsame⟩ := initialised_present hw hi hpresent
    rw [hsame] at hpresent
    have hblock : w.initialised.blockAt (fun p => [(.free, 0x80000 - imagePages (w.heap p))]) p i = i :=
      blockOf_lt (htiled p).row (by rw [← (initialised_tabs hw p).2.1] at hlow; exact hlow)
    simp [groupOf, hsame, if_neg (hw.image p i hlow hpresent).1, hblock]
  have hnoregion : ∀ r j q, ¬ Maps w.initialised (.kernel r j) q := by
    rintro r j q ⟨⟨s, hs, -⟩, -⟩
    have hs : s ∈ w.shmemList := hs
    rw [hw.shmemList] at hs
    cases hs
  refine ⟨fun p => [(.free, 0x80000 - imagePages (w.heap p))], fun _ _ => 0, hw.valid, htiled, hw.guard,
    ⟨fun k q hk => ?_, fun k k' q hk hk' => ?_⟩, fun p i hi hpresent hshared => ?_, ?_⟩
  · cases k with
    | kernel r j => exact absurd hk (hnoregion r j q)
    | user p i =>
      obtain ⟨hi, hpresent, hpage⟩ := hk
      obtain ⟨hlow, hsame⟩ := initialised_present hw hi hpresent
      rw [hsame] at hpresent hpage
      have htaken := (hw.image p i hlow hpresent).2
      rw [hpage] at htaken
      show ¬ w.bitmap.free q = true
      rw [htaken]
      decide
  · cases k with
    | kernel r j => exact absurd hk (hnoregion r j q)
    | user p i =>
      cases k' with
      | kernel r j => exact absurd hk' (hnoregion r j q)
      | user p' i' =>
        obtain ⟨hi, hpresent, hpage⟩ := hk
        obtain ⟨hi', hpresent', hpage'⟩ := hk'
        rw [hgroup p i hi hpresent, hgroup p' i' hi' hpresent']
        obtain ⟨hlow, hsame⟩ := initialised_present hw hi hpresent
        obtain ⟨hlow', hsame'⟩ := initialised_present hw hi' hpresent'
        rw [hsame] at hpresent hpage
        rw [hsame'] at hpresent' hpage'
        obtain ⟨rfl, rfl⟩ := hw.alone p p' i i' hlow hlow' hpresent hpresent' (hpage.trans hpage'.symm)
        rfl
  · obtain ⟨hlow, hsame⟩ := initialised_present hw hi hpresent
    rw [hsame] at hpresent hshared
    exact absurd hshared (hw.image p i hlow hpresent).1
  · have hlist : w.initialised.shmemList = [] := hw.shmemList
    have hobjects : w.initialised.objects = [] := hw.objects
    refine ⟨hw.blocks, hw.apart, ?_, ?_, ?_, ?_, ?_, ?_⟩ <;> simp only [hlist, hobjects]
    all_goals simp

/-- A page that is free is mapped nowhere, and every call returns. -/
theorem freed_pages_not_mapped (pat pge : Bool) (process : Nat → Nat) (w : World) (ops : List (Nat × Request))
    (hw : Boot w)
    (hfits : Allowed (step (pteValidMask pat pge) process) (fun w op => Fits (w.heap (process op.1)) op.2)
      w.initialised ops) :
    Safe w.initialised ∧
      ∀ c ∈ trace (step (pteValidMask pat pge) process) w.initialised ops, c.output = true ∧ Safe c.after := by
  have hboot : WorldInv process w.initialised := boot_inv hw
  refine ⟨?_, fun c hc => ?_⟩
  · obtain ⟨ls, reg, hI⟩ := hboot
    exact hI.safe
  have hkeep : ∀ (w' : World) (op : Nat × Request), WorldInv process w' → Fits (w'.heap (process op.1)) op.2 →
      WorldInv process (step (pteValidMask pat pge) process w' op).1 := fun _ op hI hop => (step_inv pat pge hI op hop).1
  obtain ⟨hinv, hop, hstep⟩ := trace_inv hkeep hboot hfits c hc
  obtain ⟨⟨ls, reg, hI⟩, hreturns⟩ := step_inv pat pge hinv c.input hop
  rw [hstep] at hI hreturns
  exact ⟨hreturns, hI.safe⟩

def freshWorld : World where
  bitmap := { map := fun i => if 4 ≤ i ∧ i < 8 then 0xFF else 0, pageStart := 4, pageEnd := 8, pagesFree := 32 }
  procs _ := ⟨fun _ => 0, 0, 0, 0x1000⟩
  kernelTabs _ := 0
  kernelBlocks := []
  shmemList := []
  objects := []

theorem boot_freshWorld : Boot freshWorld where
  valid := ⟨by decide, by decide, by decide⟩
  top _ := rfl
  small _ := by show (0x1000 : BitVec 32).toNat ≤ 0x7FFFF000; decide
  empty _ _ _ _ := rfl
  image _ _ _ hpresent := absurd hpresent not_present_zero
  alone _ _ _ _ _ _ hpresent := absurd hpresent not_present_zero
  guard := rfl
  blocks := nofun
  apart := List.Pairwise.nil
  shmemList := rfl
  objects := rfl

def openNew : Nat × Request := (0, .shmemOpen (some [65]) 0x1000 (shmCreate ||| shmWrite) ⟨true, 0x80800, true⟩)

def smallRun : List (Nat × Request) :=
  [(0, .userAlloc 0x2000), (0, .pageFault 3), (0, .userRealloc 0x2000 0x1000), (0, .userUnmap 0x2000 0 0x1000),
    (0, .userRing 0x1000), openNew, (1, .shmemOpen (some [65]) 0 shmOpen ⟨true, 0, true⟩), (0, .shmemClose (some [65])),
    (1, .shmemClose (some [65]))]

theorem freed_pages_not_mapped_small :
    (trace (step (pteValidMask false false) id) freshWorld.initialised smallRun).length = 9 ∧
    ∀ c ∈ trace (step (pteValidMask false false) id) freshWorld.initialised smallRun, c.output = true ∧ Safe c.after :=
  ⟨rfl, (freed_pages_not_mapped false false id freshWorld smallRun boot_freshWorld (by decide +kernel)).2⟩

/-- One half of a ring is unmapped. A map is shrunk to nothing. A map has to move. -/
theorem freed_pages_stay_mapped :
    ¬ Safe (final (step (pteValidMask false false) id) freshWorld.initialised
      [(0, .userRing 0x1000), (0, .userUnmap 0x2000 0 0x1000)]) ∧
    ¬ Safe (final (step (pteValidMask false false) id) freshWorld.initialised [openNew, (0, .userRealloc 0x2000 0)]) ∧
    ¬ Safe (final (step (pteValidMask false false) id) freshWorld.initialised
      [openNew, (0, .userAlloc 0x1000), (0, .userRealloc 0x2000 0x2000), (0, .shmemClose (some [65]))]) := by
  refine ⟨fun hsafe => ?_, fun hsafe => ?_, fun hsafe => ?_⟩
  · exact (hsafe 32 (by decide +kernel)).1 0 3 (by decide +kernel) (by decide) (by decide +kernel) (by decide +kernel)
  · -- The region is still there, and the kernel maps its page.
    let w := final (step (pteValidMask false false) id) freshWorld.initialised [openNew, (0, .userRealloc 0x2000 0)]
    obtain ⟨r, hr, hbase, hsize⟩ : ∃ r ∈ w.shmemList, r.base = 0x80800000 ∧ r.size = 0x1000 := by decide +kernel
    have hnot := (hsafe 32 (by decide +kernel)).2 r hr 0 (by rw [hsize]; decide)
    rw [hbase] at hnot
    exact hnot (by decide +kernel) (by decide +kernel)
  · exact (hsafe 32 (by decide +kernel)).1 0 6 (by decide +kernel) (by decide) (by decide +kernel) (by decide +kernel)

end Kolibri.Shmem
