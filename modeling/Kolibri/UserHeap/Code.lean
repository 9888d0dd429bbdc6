import Kolibri.Bitmap.Code
import Kolibri.Paging

/-! # The heap of a process (`core/heap.inc`)

The entry of a block's first page is its header: the size of the block and a flag. Addresses and sizes are
numbers with `% 2 ^ 32` where the code can wrap. An index of `page_tabs` is a register times 4 and wraps at
`2 ^ 30`.
-/

namespace Kolibri.UserHeap

open Bitmap Paging Function

def memBlockReserved : Nat := 0x02
def memBlockFree : Nat := 0x04
def memBlockUsed : Nat := 0x08
def memBlockDontFree : Nat := 0x10

def heapTopAddr : Nat := 0x80000000

def topPage : Nat := 0x80000

structure Heap where
  tabs : Nat → Nat
  heapBase : Nat
  heapTop : Nat
  memUsed : BitVec 32
  bitmap : PhysBitmap

def pageAlign (x : Nat) : Nat := x / 4096 * 4096

def fill (tabs : Nat → Nat) (start n v : Nat) : Nat → Nat :=
  fun i => if i < 2 ^ 30 ∧ (i + (2 ^ 30 - start % 2 ^ 30)) % 2 ^ 30 < n then v else tabs i

variable (h : Heap)

def initHeap : Heap × Nat :=
  if h.heapTop ≠ 0 then (h, (h.heapTop + 2 ^ 32 - h.heapBase + 2 ^ 32 - 4096) % 2 ^ 32)
  else
    let esi := pageAlign ((h.memUsed.toNat + 4095) % 2 ^ 32)
    let size := (heapTopAddr + 2 ^ 32 - esi) % 2 ^ 32
    ({ h with
        memUsed := BitVec.ofNat 32 esi
        heapBase := esi
        heapTop := heapTopAddr
        tabs := update h.tabs (esi / 4096) (size ||| memBlockFree) }, (size + 2 ^ 32 - 4096) % 2 ^ 32)

/-! ## `user_alloc` -/

inductive Walk
  | found (esi eax : Nat)
  | exit
  | hang
  deriving DecidableEq

def walkFuel : Nat := 2 ^ 20

def userAllocScan (tabs : Nat → Nat) (edi ecx : Nat) : Nat → Nat → Walk
  | 0, _ => .hang
  | fuel + 1, esi =>
    if esi ≥ edi then .exit
    else
      let eax := tabs (esi / 4096)
      if eax &&& memBlockFree ≠ 0 then
        if pageAlign eax < ecx then userAllocScan tabs edi ecx fuel ((esi + pageAlign eax) % 2 ^ 32)
        else .found esi (pageAlign eax)
      else if eax &&& memBlockUsed ≠ 0 then
        userAllocScan tabs edi ecx fuel ((esi + pageAlign eax) % 2 ^ 32)
      else .exit

/-- The loop `dec ecx / jnz` runs `2 ^ 32 - 1` times if the block has no page at all. -/
def payload (ecx : Nat) : Nat := (ecx / 4096 + 2 ^ 32 - 1) % 2 ^ 32

/-- The result is an address or 0. `none` is a call that does not return. -/
def userAlloc (allocSize : BitVec 32) : Option (Heap × BitVec 32) :=
  let ecx := pageAlign ((allocSize.toNat + 0x1FFF) % 2 ^ 32)
  match userAllocScan h.tabs h.heapTop ecx walkFuel h.heapBase with
  | .hang => none
  | .exit => some (h, 0)
  | .found esi eax =>
    let ebx := esi / 4096
    let tabs :=
      if eax = ecx then h.tabs
      else update h.tabs ((esi + ecx) % 2 ^ 32 / 4096) ((eax - ecx) ||| memBlockFree)
    let tabs := update tabs ebx (ecx ||| memBlockUsed)
    let tabs := fill tabs (ebx + 1) (payload ecx) memBlockReserved
    some ({ h with tabs, memUsed := h.memUsed + ((allocSize + 4095) &&& 0xFFFFF000) }, BitVec.ofNat 32 (esi + 4096))

/-! ## `user_alloc_at` -/

def userAllocAtScan (tabs : Nat → Nat) (edi edx : Nat) : Nat → Nat → Walk
  | 0, _ => .hang
  | fuel + 1, esi =>
    if esi ≥ edi then .exit
    else
      let eax := tabs (esi / 4096)
      let ecx := (pageAlign eax + esi) % 2 ^ 32
      if edx < ecx then .found esi eax else userAllocAtScan tabs edi edx fuel ecx

def userAllocAt (address allocSize : BitVec 32) : Option (Heap × BitVec 32) :=
  let address := pageAlign address.toNat
  if address < 4096 then some (h, 0)
  else
    let edx := address - 4096
    if edx < h.heapBase then some (h, 0)
    else
      match userAllocAtScan h.tabs h.heapTop edx walkFuel h.heapBase with
      | .hang => none
      | .exit => some (h, 0)
      | .found esi eax =>
        let ecx := (pageAlign eax + esi) % 2 ^ 32
        if eax &&& memBlockFree = 0 then some (h, 0)
        else if (ecx - edx + 2 ^ 32 - 4096) % 2 ^ 32 < allocSize.toNat then some (h, 0)
        else
          let tabs := if edx = esi then h.tabs else update h.tabs (esi / 4096) ((edx - esi) ||| memBlockFree)
          let size := pageAlign ((allocSize.toNat + 0x1FFF) % 2 ^ 32)
          let ebx := edx / 4096
          let tabs := update tabs ebx (size ||| memBlockUsed)
          let tabs := fill tabs (ebx + 1) (payload size) memBlockReserved
          -- `.second_nofill` is behind the `inc ebx`.
          let ebx := if payload size = 0 then ebx else ebx + 1 + payload size
          let rest := (ecx + 2 ^ 32 - (edx + size)) % 2 ^ 32
          let tabs := if rest = 0 then tabs else update tabs ebx (rest ||| memBlockFree)
          some ({ h with tabs, memUsed := h.memUsed + ((allocSize + 4095) &&& 0xFFFFF000) }, BitVec.ofNat 32 address)

/-! ## `user_normalize` and `user_free` -/

/-- Neighbouring free blocks become one. The walk tests its bound only behind a free block. -/
def userNormalizeLoop (edi : Nat) : Nat → (Nat → Nat) → Nat → Option (Nat → Nat)
  | 0, _, _ => none
  | fuel + 1, tabs, esi =>
    let eax := tabs esi
    if eax &&& memBlockUsed ≠ 0 then userNormalizeLoop edi fuel tabs (esi + eax / 4096)
    else if eax &&& memBlockFree = 0 then some tabs
    else
      let edx := esi + eax / 4096
      if edx ≥ edi then some tabs
      else
        let ebx := tabs edx
        if ebx &&& memBlockUsed ≠ 0 then userNormalizeLoop edi fuel tabs (edx + ebx / 4096)
        else if ebx &&& memBlockFree = 0 then some tabs
        else
          let tabs := update tabs edx 0
          userNormalizeLoop edi fuel
            (update tabs esi (pageAlign ((eax + ebx) % 2 ^ 32) ||| memBlockFree)) esi

def userNormalize : Option Heap :=
  (userNormalizeLoop (h.heapTop / 4096) walkFuel h.tabs (h.heapBase / 4096)).map
    fun tabs => { h with tabs }

def Present (entry : Nat) : Prop := entry &&& 1 ≠ 0
  deriving Decidable

def Shared (entry : Nat) : Prop := entry &&& 0x200 ≠ 0
  deriving Decidable

/-- `test eax, 1` and `test eax, PG_SHARED`: a present page that is not shared. -/
def Private (entry : Nat) : Prop := Present entry ∧ ¬ Shared entry

instance (entry : Nat) : Decidable (Private entry) := inferInstanceAs (Decidable (_ ∧ _))

/-- The `.release` loop of `user_free`: shared pages stay. -/
def userFreeLoop : Nat → Heap → Nat → Heap
  | 0, h, _ => h
  | ecx + 1, h, esi =>
    let eax := h.tabs esi
    let h := { h with tabs := update h.tabs esi 0 }
    let h :=
      if Private eax then { h with bitmap := freePage h.bitmap (BitVec.ofNat 32 eax) } else h
    userFreeLoop ecx h (esi + 1)

/-- The header of the block whose pages start at page `esi`. -/
def headerIndex (esi : Nat) : Nat := (esi + 2 ^ 30 - 1) % 2 ^ 30

def userFree (base : BitVec 32) : Option (Heap × BitVec 32) :=
  if base = 0 then some (h, 0)
  else
    let esi := base.toNat / 4096
    let eax := h.tabs (headerIndex esi)
    if eax &&& memBlockUsed = 0 then some (h, 1)
    else if eax &&& memBlockDontFree ≠ 0 then some (h, 1)
    else
      let h := { h with tabs := update h.tabs (headerIndex esi) (pageAlign eax ||| memBlockFree) }
      let ebx := (pageAlign eax + 2 ^ 32 - 4096) % 2 ^ 32
      let h := userFreeLoop (ebx / 4096) h esi
      let h := { h with memUsed := h.memUsed - BitVec.ofNat 32 ebx }
      (userNormalize h).map fun h => (h, 1)

/-! ## `user_unmap` -/

def userUnmapLoop : Nat → Heap → Nat → Heap
  | 0, h, _ => h
  | ecx + 1, h, edx =>
    let eax := h.tabs edx
    let h :=
      if Private eax then
        { h with
            tabs := update h.tabs edx memBlockReserved
            bitmap := freePage h.bitmap (BitVec.ofNat 32 eax) }
      else h
    userUnmapLoop ecx h ((edx + 1) % 2 ^ 30)

/-- The result is 0 for an error. Success is any other value; the model says 1. -/
def userUnmap (base offset size : BitVec 32) : Heap × BitVec 32 :=
  let edx := offset + base
  let ebx := base.toNat / 4096
  let eax := h.tabs (headerIndex ebx)
  if base = 0 then (h, 0)
  else if edx.toNat ≥ 2 ^ 31 then (h, 0)
  else if eax &&& memBlockUsed = 0 then (h, 0)
  else if eax &&& memBlockDontFree ≠ 0 then (h, 0)
  else
    let edx := edx.toNat / 4096
    let ecx := (size.toNat + 4095) % 2 ^ 32 / 4096
    if edx + ecx > ebx + eax / 4096 - 1 then (h, 0)
    else
      -- `dec ecx / jnz`: a count of 0 is `2 ^ 32`.
      (userUnmapLoop (if ecx = 0 then 2 ^ 32 else ecx) h edx, 1)

/-! ## `user_realloc` -/

/-- The `.loop` that gives back the pages from `edx` down. -/
def userReallocRelease : Nat → Heap → Nat → Heap
  | 0, h, _ => h
  | n + 1, h, edx =>
    let edx := edx - 1
    let eax := h.tabs edx
    let h := { h with tabs := update h.tabs edx 0 }
    let h := if Present eax then { h with bitmap := freePage h.bitmap (BitVec.ofNat 32 eax) } else h
    userReallocRelease n h edx

/-- The free blocks behind a shrunk block are taken in. The result is the table and the size. -/
def userReallocMerge (esi : Nat) : Nat → (Nat → Nat) → Nat → Nat → Option ((Nat → Nat) × Nat)
  | 0, _, _, _ => none
  | fuel + 1, tabs, edx, ebx =>
    if edx ≥ esi then some (tabs, ebx)
    else
      let eax := tabs edx
      if eax &&& memBlockUsed ≠ 0 then some (tabs, ebx)
      else
        userReallocMerge esi fuel (update tabs edx 0) (edx + eax / 4096) ((ebx + pageAlign eax) % 2 ^ 32)

def findPlace (tabs : Nat → Nat) (edi ebx : Nat) : Nat → Nat → Walk
  | 0, _ => .hang
  | fuel + 1, esi =>
    if esi ≥ edi then .exit
    else
      let eax := tabs esi
      if eax &&& memBlockFree ≠ 0 ∧ eax / 4096 ≥ ebx then .found esi (eax / 4096)
      else findPlace tabs edi ebx fuel (esi + eax / 4096)

/-- The entries move, in order, and leave 0 behind. -/
def movePages : Nat → (Nat → Nat) → Nat → Nat → (Nat → Nat)
  | 0, tabs, _, _ => tabs
  | edx + 1, tabs, esi, ecx =>
    let eax := tabs ecx
    movePages edx (update (update tabs ecx 0) esi eax) (esi + 1) (ecx + 1)

/-- `ecx` is the header, `edx` the end of the block, `ebx` its new end. -/
def userReallocShrink (ecx edx ebx : Nat) : Option (Heap × BitVec 32) :=
  let h := userReallocRelease (edx - ebx) h edx
  let ebx := ebx - ecx
  if ebx = 1 then
    let eax := pageAlign (h.tabs ecx)
    let h := { h with
      memUsed := h.memUsed - BitVec.ofNat 32 eax + 4096
      tabs := update h.tabs ecx (eax ||| memBlockFree) }
    (userNormalize h).map fun h => (h, 0)
  else
    let old := h.tabs ecx / 4096
    let tabs := update h.tabs ecx ((ebx * 4096) % 2 ^ 32 ||| memBlockUsed)
    let freed := (old + 2 ^ 32 - ebx) % 2 ^ 32
    let h := { h with tabs, memUsed := h.memUsed - BitVec.ofNat 32 (freed * 4096) }
    let eax := BitVec.ofNat 32 ((ecx + 1) * 4096)
    let ecx := ecx + ebx
    if freed * 4096 % 2 ^ 32 = 0 then some (h, eax)
    else
      (userReallocMerge (h.heapTop / 4096) walkFuel h.tabs (ecx + freed) (freed * 4096 % 2 ^ 32)).map
        fun (tabs, ebx) => ({ h with tabs := update tabs ecx (ebx ||| memBlockFree) }, eax)

def userReallocInplace (ecx edx ebx : Nat) : Heap × BitVec 32 :=
  let rest := h.tabs edx / 4096 + edx - ebx
  let tabs := if rest = 0 then h.tabs else update h.tabs ebx ((rest * 4096) ||| memBlockFree)
  let tabs := update tabs ecx ((ebx - ecx) * 4096 ||| memBlockUsed)
  let tabs := fill tabs edx (ebx - edx) memBlockReserved
  ({ h with tabs, memUsed := h.memUsed + BitVec.ofNat 32 ((ebx - edx) * 4096) }, BitVec.ofNat 32 ((ecx + 1) * 4096))

def userReallocMove (ecx edx ebx : Nat) : Option (Heap × BitVec 32) :=
  let ebx := ebx - ecx
  match findPlace h.tabs (h.heapTop / 4096) ebx walkFuel (h.heapBase / 4096) with
  | .hang => none
  | .exit => some (h, 0)
  | .found esi eax =>
    let tabs := if eax = ebx then h.tabs else update h.tabs (esi + ebx) ((eax - ebx) * 4096 ||| memBlockFree)
    let tabs := update tabs esi (ebx * 4096 ||| memBlockUsed)
    let tabs := update tabs ecx (pageAlign (tabs ecx) ||| memBlockFree)
    let edx := (edx - ecx + 2 ^ 32 - 1) % 2 ^ 32
    let tabs := movePages edx tabs (esi + 1) (ecx + 1)
    let ebx := (ebx + 2 ^ 32 - 1 - edx) % 2 ^ 32
    let tabs := fill tabs (esi + 1 + edx) ebx memBlockReserved
    some ({ h with tabs, memUsed := h.memUsed + BitVec.ofNat 32 (ebx * 4096) }, BitVec.ofNat 32 ((esi + 1) * 4096))

/-- `eax` is the old address or 0, `ebx` the new size. -/
def userRealloc (eax ebx : BitVec 32) : Option (Heap × BitVec 32) :=
  if eax = 0 then userAlloc h ebx
  else
    let ecx := (eax - 4096).toNat / 4096
    let edx := h.tabs ecx
    if edx &&& memBlockUsed = 0 then some (h, 0)
    else if edx &&& memBlockDontFree ≠ 0 then some (h, 0)
    else
      let ebx := (ebx.toNat + 0x1FFF) % 2 ^ 32 / 4096 + ecx
      let edx := edx / 4096 + ecx
      if edx ≥ ebx then userReallocShrink h ecx edx ebx
      else if edx < h.heapTop / 4096 ∧ h.tabs edx &&& memBlockFree ≠ 0 ∧ ebx ≤ h.tabs edx / 4096 + edx then
        some (userReallocInplace h ecx edx ebx)
      else userReallocMove h ecx edx ebx

/-! ## `user_ring` -/

/-- `.loop1` and `.loop2`: `ecx` pages from page `esi` on are mapped to `edi` and so on. -/
def userRingLoop (pteMask : BitVec 32) : Nat → (Nat → Nat) → Nat → BitVec 32 → Nat → Nat
  | 0, tabs, _, _ => tabs
  | ecx + 1, tabs, esi, edi =>
    userRingLoop pteMask ecx (update tabs (esi % 2 ^ 20) (mapPage pteMask edi pgUwr).toNat) (esi + 1) (edi + 4096)

def userRing (pteMask : BitVec 32) (h : Heap) (size : BitVec 32) : Option (Heap × BitVec 32) :=
  let numPages := size.toNat / 4096
  if size.toNat % 4096 ≠ 0 then some (h, 0)
  else if numPages = 0 then some (h, 0)
  else if size <<< 1 = 0 then some (h, 0)
  else
    match userAlloc h (size <<< 1) with
    | none => none
    | some (h, virtPtr) =>
      if virtPtr = 0 then some (h, 0)
      else
        let (bitmap, physPtr) := allocPages h.bitmap (BitVec.ofNat 32 numPages)
        let h := { h with bitmap }
        if physPtr = 0 then (userFree h virtPtr).map fun (h, _) => (h, 0)
        else
          let esi := virtPtr.toNat / 4096
          let tabs := userRingLoop pteMask numPages h.tabs esi physPtr
          let tabs := userRingLoop pteMask numPages tabs (esi + numPages) physPtr
          some ({ h with tabs }, virtPtr)

/-! ## `page_fault_handler` -/

/-- The first touch of a reserved page maps a new one; other faults change nothing. -/
def pageFault (pteMask : BitVec 32) (h : Heap) (ebx : Nat) : Heap :=
  let eax := h.tabs ebx
  if Present eax then h
  else if eax &&& memBlockReserved = 0 then h
  else
    let (bitmap, eax) := allocPage h.bitmap
    if eax = 0 then { h with bitmap }
    else { h with tabs := update h.tabs ebx (mapPage pteMask eax pgUwr).toNat, bitmap }

end Kolibri.UserHeap
