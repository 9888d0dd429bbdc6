import Kolibri.UserHeap.Code

/-! # Shared memory (`core/heap.inc`)

A process that opens a region has a block of its heap whose entries point to the pages of the region. All
processes share the kernel's tables. What `alloc_kernel_space` and `malloc` answer is an argument. `refcount` is
a number: there is no room for `2 ^ 32` objects.
-/

namespace Kolibri.Shmem

open Bitmap Paging UserHeap Function

/-- `SMEM`. Its address is not needed: `base` is different for each region. -/
structure Smem where
  base : Nat
  size : Nat
  access : BitVec 32
  refcount : Nat
  name : List (BitVec 8)

structure Smap where
  slot : Nat
  base : BitVec 32
  parent : Nat
  deriving DecidableEq

structure Proc where
  tabs : Nat → Nat
  heapBase : Nat
  heapTop : Nat
  memUsed : BitVec 32

structure World where
  bitmap : PhysBitmap
  procs : Nat → Proc
  kernelTabs : Nat → Nat
  /-- The used blocks of `alloc_kernel_space`: first page and number of pages. -/
  kernelBlocks : List (Nat × Nat)
  shmemList : List Smem
  /-- The `SMAP` objects of all slots, the newest first. -/
  objects : List Smap

variable (w : World)

def World.heap (p : Nat) : Heap where
  tabs i := if i < topPage then (w.procs p).tabs i else w.kernelTabs i
  heapBase := (w.procs p).heapBase
  heapTop := (w.procs p).heapTop
  memUsed := (w.procs p).memUsed
  bitmap := w.bitmap

def World.store (p : Nat) (h : Heap) : World :=
  { w with
      bitmap := h.bitmap
      procs := update w.procs p ⟨h.tabs, h.heapBase, h.heapTop, h.memUsed⟩
      kernelTabs := fun i => if i < topPage then w.kernelTabs i else h.tabs i }

def World.call (p : Nat) (f : Heap → Option (Heap × BitVec 32)) : Option (World × BitVec 32) :=
  (f (w.heap p)).map fun (h, eax) => (w.store p h, eax)

/-! ## `kernel_alloc` and `kernel_free` -/

def SpaceFree (page pages : Nat) : Prop :=
  0x80800 ≤ page ∧ page + pages ≤ 0xFDC00 ∧ ∀ b ∈ w.kernelBlocks, page + pages ≤ b.1 ∨ b.1 + b.2 ≤ page
  deriving Decidable

def allocKernelSpace (page pages : Nat) : World × Nat :=
  if SpaceFree w page pages then ({ w with kernelBlocks := (page, pages) :: w.kernelBlocks }, page) else (w, 0)

variable (pteMask : BitVec 32)

def commitPages (tabs : Nat → Nat) (eax : BitVec 32) (ebx ecx : Nat) : Nat → Nat := fun i =>
  if ebx ≤ i ∧ i < ebx + ecx then ((eax &&& pteMask) + BitVec.ofNat 32 (4096 * (i - ebx))).toNat else tabs i

/-- The whole eights of pages, in one run of frames. `false` is a failure. -/
def kernelAllocRun (w : World) (linAddr ebx : Nat) : World × Bool :=
  if ebx = 0 then (w, true)
  else
    let (bitmap, eax) := allocPages w.bitmap (BitVec.ofNat 32 ebx)
    let w := { w with bitmap }
    if eax = 0 then (w, false)
    else
      ({ w with kernelTabs := commitPages pteMask w.kernelTabs (eax ||| (pgGlobal ||| pgSwr)) linAddr ebx }, true)

def kernelAllocTail (pteMask : BitVec 32) : Nat → World → Nat → World × Bool
  | 0, w, _ => (w, true)
  | ebx + 1, w, edx =>
    let (bitmap, eax) := allocPage w.bitmap
    let w := { w with bitmap }
    if eax = 0 then (w, false)
    else
      let entry := (mapPage pteMask eax (pgGlobal ||| pgSwr)).toNat
      kernelAllocTail pteMask ebx { w with kernelTabs := update w.kernelTabs edx entry } (edx + 1)

/-- The result is the address or 0. What a failed call has taken stays taken. -/
def kernelAlloc (w : World) (size : BitVec 32) (place : Nat) : World × Nat :=
  let pagesCount := (size.toNat + 4095) % 2 ^ 32 / 4096
  if pagesCount = 0 then (w, 0)
  else
    let (w, linAddr) := allocKernelSpace w place pagesCount
    if linAddr = 0 then (w, 0)
    else
      let (w, done) := kernelAllocRun pteMask w linAddr (pagesCount / 8 * 8)
      if ¬ done then (w, 0)
      else
        let (w, done) := kernelAllocTail pteMask (pagesCount % 8) w (linAddr + pagesCount / 8 * 8)
        if ¬ done then (w, 0) else (w, 4096 * linAddr)

def releasePages : Nat → World → Nat → World
  | 0, w, _ => w
  | ecx + 1, w, esi =>
    let eax := w.kernelTabs esi
    let w := { w with kernelTabs := update w.kernelTabs esi 0 }
    let w :=
      if Present eax then
        { w with bitmap := (releaseBitmapPageModeB w.bitmap (BitVec.ofNat 32 eax >>> 12)).1 }
      else w
    releasePages ecx w (esi + 1)

def kernelFree (base : Nat) : World :=
  match w.kernelBlocks.find? fun b => b.1 = base / 4096 with
  | none => w
  | some b =>
    let w := releasePages b.2 w b.1
    { w with kernelBlocks := w.kernelBlocks.erase b }

/-! ## Regions -/

/-- `strncmp` of two names up to their terminators. -/
def strncmpEq (a b : List (BitVec 8)) (n : Nat) : Bool := a.take n = b.take n

def findRegion (base : Nat) : Option Smem := w.shmemList.find? fun r => r.base = base

def World.setRefcount (base : Nat) (f : Nat → Nat) : World :=
  { w with
      shmemList := w.shmemList.map fun r => if r.base = base then { r with refcount := f r.refcount } else r }

/-- The last map of a region takes the region with it. -/
def destroySmap (m : Smap) : World :=
  let w :=
    match findRegion w m.parent with
    | none => w
    | some r =>
      let w := w.setRefcount r.base (· - 1)
      if r.refcount ≠ 1 then w
      else kernelFree { w with shmemList := w.shmemList.filter fun s => s.base ≠ r.base } r.base
  { w with objects := w.objects.erase m }

def shmAccessMask : BitVec 32 := 3
def shmOpenMask : BitVec 32 := 12
def shmOpen : BitVec 32 := 0
def shmOpenAlways : BitVec 32 := 4
def shmCreate : BitVec 32 := 8
def shmWrite : BitVec 32 := 1

def eNotFound : BitVec 32 := 5
def eAccess : BitVec 32 := 10
def eNomem : BitVec 32 := 30
def eParam : BitVec 32 := 33

structure Answers where
  smem : Bool
  place : Nat
  object : Bool

/-- `lodsd / and eax, -PAGE_SIZE / or eax, edx / stosd`. -/
def mapRegion (tabs : Nat → Nat) (edi esi ecx : Nat) (edx : BitVec 32) : Nat → Nat := fun i =>
  if edi ≤ i ∧ i < edi + ecx then pageAlign (tabs (esi + (i - edi))) ||| edx.toNat else tabs i

/-- From `.create_map` on. The result is `eax` and `edx`. -/
def createMap (slot p : Nat) (r : Smem) (access ownerAccess mapped : BitVec 32) (object : Bool) :
    Option (World × BitVec 32 × BitVec 32) :=
  let access := access &&& shmAccessMask
  if access > r.access then some (w, mapped, eAccess)
  else if ¬ object then some (w, mapped, eNomem)
  else
    let w := w.setRefcount r.base (· + 1)
    match w.call p fun h => userAlloc h (BitVec.ofNat 32 r.size) with
    | none => none
    | some (w, eax) =>
      if eax = 0 then
        some (destroySmap { w with objects := ⟨slot, 0, r.base⟩ :: w.objects } ⟨slot, 0, r.base⟩, 0, eNomem)
      else
        let w := { w with objects := ⟨slot, eax, r.base⟩ :: w.objects }
        let h := w.heap p
        let edx := ((access ||| ownerAccess) <<< 1) ||| (pgShared ||| pgUr)
        let w := w.store p { h with
          tabs := mapRegion h.tabs (eax.toNat / 4096) (r.base / 4096) (r.size / 4096) edx }
        some (w, eax, if ownerAccess ≠ 0 then 0 else BitVec.ofNat 32 r.size)

def shmemOpen (w : World) (slot p : Nat) (name : Option (List (BitVec 8)))
    (size access : BitVec 32) (answers : Answers) : Option (World × BitVec 32 × BitVec 32) :=
  let action := access &&& shmOpenMask
  match name with
  | none => some (w, 0, eParam)
  | some name =>
    match w.shmemList.find? fun r => strncmpEq r.name name 32 with
    | some r =>
      if action = shmCreate then some (w, 0, size)
      else if action = shmOpen ∨ action = shmOpenAlways then createMap w slot p r access 0 0 answers.object
      else some (w, 0, eParam)
    | none =>
      if action = shmOpen then some (w, 0, eNotFound)
      else if action ≠ shmCreate ∧ action ≠ shmOpenAlways then some (w, 0, eParam)
      else if size = 0 then some (w, 0, eParam)
      else if ¬ answers.smem then some (w, 0, eNomem)
      else
        let size := BitVec.ofNat 32 (pageAlign ((size.toNat + 4095) % 2 ^ 32))
        let (w, base) := kernelAlloc pteMask w size answers.place
        if base = 0 then some (w, 0, eNomem)
        else
          let r : Smem := ⟨base, size.toNat, access &&& shmAccessMask, 0, name.take 31⟩
          createMap { w with shmemList := r :: w.shmemList } slot p r access shmWrite (BitVec.ofNat 32 base)
            answers.object

/-- The block of the map is freed at the place where `shmem_open` has put it. -/
def shmemClose (slot p : Nat) (name : Option (List (BitVec 8))) : Option World :=
  match name with
  | none => some w
  | some name =>
    let named := fun m : Smap =>
      match findRegion w m.parent with
      | none => false
      | some r => strncmpEq name r.name 32
    match w.objects.find? fun m => m.slot = slot && named m with
    | none => some w
    | some m => (w.call p fun h => userFree h m.base).map fun (w, _) => destroySmap w m

end Kolibri.Shmem
