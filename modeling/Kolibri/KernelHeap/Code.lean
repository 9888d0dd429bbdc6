import Kolibri.Lib.LinkedLists
import Kolibri.UserHeap.Code

/-! # The address space of the kernel (`core/heap.inc`)

The descriptors (`MEM_BLOCK`) are linked in the order of their blocks. Free blocks are also in one of 64 lists,
by size, and used blocks in one of 64 lists, by a hash of their address.

Links are nodes instead of addresses. Numbers have `% 2 ^ 32` where the code can wrap. The heap lock is left
out: a call is one step.
-/

namespace Kolibri.KernelHeap

open LinkedLists Function
open UserHeap (memBlockFree memBlockUsed pageAlign)

inductive Node
  | null
  | freeHead (i : Nat)
  | usedHead (i : Nat)
  | block (d : Nat)
  deriving DecidableEq

structure Space where
  next : Node → Node
  prev : Node → Node
  nextBlock : Node → Node
  prevBlock : Node → Node
  base : Node → Nat
  size : Node → Nat
  flags : Node → Nat
  memBlockMask : Nat → BitVec 32
  memHashCnt : Nat → BitVec 32
  nextMemblock : Node
  heapSize : Nat
  heapFree : Nat
  freeBlocks : BitVec 32

def heapBase : Nat := 0x80800000

/-- `PAGE_SIZE * sizeof.MEM_BLOCK`: the descriptors come first. -/
def descriptorsSize : Nat := 4096 * 32

def calcIndex (op : Nat) : Nat := min ((op / 4096 + 2 ^ 32 - 1) % 2 ^ 32) 63

def bts (mask : Nat → BitVec 32) (i : Nat) : Nat → BitVec 32 :=
  update mask (i / 32) (mask (i / 32) ||| 1#32 <<< (i % 32))

def btr (mask : Nat → BitVec 32) (i : Nat) : Nat → BitVec 32 :=
  update mask (i / 32) (mask (i / 32) &&& ~~~(1#32 <<< (i % 32)))

variable (h : Space)

def listAdd (new head : Node) : Space :=
  { h with next := addNext h.next new head, prev := addPrev h.next h.prev new head }

def listDel (entry : Node) : Space :=
  { h with next := removeNext h.next h.prev entry, prev := removePrev h.next h.prev entry }

/-! ## The used lists -/

def usedIndex (base : Nat) : Nat := ((base + base / 64) % 2 ^ 32 + base / 64 / 64) % 2 ^ 32 / 4096 % 64

def addToUsed (esi : Node) : Space :=
  let eax := usedIndex (h.base esi)
  let h := { h with memHashCnt := update h.memHashCnt eax (h.memHashCnt eax + 1) }
  let h := listAdd h esi (.usedHead eax)
  { h with
      flags := update h.flags esi memBlockUsed
      heapFree := (h.heapFree + 2 ^ 32 - h.size esi) % 2 ^ 32 }

def scanFuel : Nat := 2 ^ 13

/-- `null` if no used block starts at `eax`. `none` is a walk that does not end. -/
def findUsed (eax : Nat) : Option Node :=
  (scan h.next (.usedHead (usedIndex eax)) (fun esi => h.base esi = eax) scanFuel (.usedHead (usedIndex eax))).map
    fun esi => esi.getD .null

def delFromUsed (eax : Nat) : Option (Space × Node) :=
  (findUsed h eax).map fun esi =>
    if esi = .null then (h, .null)
    else if h.flags esi ≠ memBlockUsed then (h, .null)
    else
      let ecx := usedIndex eax
      (listDel { h with memHashCnt := update h.memHashCnt ecx (h.memHashCnt ecx - 1) } esi, esi)

/-! ## `init_kernel_heap` -/

def kernelPages (pages : Nat) : Nat :=
  let edx := pages / 1024 * 1024
  if edx > 0x80000 then 0x80000 else if edx ≥ 0x1800 then edx else 0x1800

def initKernelHeap (kernelPages : Nat) : Space :=
  let edi := Node.block 0
  let ebx := Node.block 1
  let ecx := Node.block 2
  let size := (kernelPages * 4096 + 2 ^ 32 - (0x800000 + descriptorsSize)) % 2 ^ 32
  let heads := fun (link : Node → Node) (n : Node) =>
    match n with
    | .freeHead i => .freeHead i
    | .usedHead i => .usedHead i
    | n => link n
  let h := { h with
    next := update (update (heads h.next) edi .null) ecx .null
    prev := update (update (heads h.prev) edi .null) ecx .null
    nextBlock := update (update (update h.nextBlock edi ebx) ecx .null) ebx ecx
    prevBlock := update (update (update h.prevBlock edi .null) ecx ebx) ebx edi
    base := update (update (update h.base edi heapBase) ecx 0) ebx (heapBase + descriptorsSize)
    size := update (update (update h.size edi descriptorsSize) ecx 0) ebx size
    flags := update (update (update h.flags edi memBlockUsed) ecx memBlockUsed) ebx memBlockFree
    heapSize := size
    heapFree := size
    memBlockMask := update (update h.memBlockMask 0 0) 1 0x80000000
    nextMemblock := .block 3
    freeBlocks := 4093 }
  let h := listAdd h ebx (.freeHead 63)
  -- The descriptors behind the terminator are spare.
  { h with
      next := fun n =>
        match n with
        | .block d => if 3 ≤ d ∧ d < 4095 then .block (d + 1) else if d = 4095 then .null else h.next n
        | n => h.next n }

/-! ## `alloc_kernel_space` -/

def findList (ecx : Nat) : Option Nat :=
  let (ebx, cl) := if ecx < 32 then (0, ecx) else (32, ecx - 32)
  let edx := (0xFFFFFFFF#32 <<< (cl % 32)) &&& h.memBlockMask (ebx / 32)
  if edx ≠ 0 then some (ebx + edx.ctz.toNat)
  else if ebx = 32 then none
  else
    let edx := h.memBlockMask 1
    if edx ≠ 0 then some (32 + edx.ctz.toNat) else none

/-- The list where the search starts. `jle` is a signed test. -/
def smallIndex (eax : Nat) : Nat :=
  let ecx := (eax / 4096 + 2 ^ 32 - 1) % 2 ^ 32
  if ecx ≤ 63 ∨ 2 ^ 31 ≤ ecx then ecx else 63

/-- The first block of list `ebx` that is large enough. `null` if there is none. -/
def findBlock (eax : Nat) : Option Nat → Option (Node × Nat)
  | none => some (.null, 0)
  | some ebx =>
    (scan h.next (.freeHead ebx) (fun edi => eax ≤ h.size edi) scanFuel (.freeHead ebx)).map
      fun edi => (edi.getD .null, ebx)

def getSmallBlock (eax : Nat) : Option (Node × Nat) := findBlock h eax (findList h (smallIndex eax))

/-- `cmp edx, [edx] / btr`: the bit of a list that has become empty. -/
def clearIfEmpty (i : Nat) : Space :=
  if h.next (.freeHead i) = .freeHead i then { h with memBlockMask := btr h.memBlockMask i } else h

def addBlock (edi : Node) (eax : Nat) : Space :=
  listAdd { h with memBlockMask := bts h.memBlockMask eax } edi (.freeHead eax)

def moveBlock (edi : Node) (ecx eax : Nat) : Space :=
  if eax = ecx then h else addBlock (clearIfEmpty (listDel h edi) ecx) edi eax

def splitBlock (esi edi : Node) (size : Nat) : Space :=
  let eax := h.prevBlock edi
  { h with
      freeBlocks := h.freeBlocks - 1
      nextMemblock := h.next esi
      nextBlock := update (update h.nextBlock esi edi) eax esi
      prevBlock := update (update h.prevBlock esi eax) edi esi
      next := update h.next esi .null
      prev := update h.prev esi .null
      base := update (update h.base esi (h.base edi)) edi ((h.base edi + size) % 2 ^ 32)
      size := update (update h.size esi size) edi ((h.size edi + 2 ^ 32 - size) % 2 ^ 32) }

/-- The result is the address or 0. `none` is a call that does not return. -/
def allocKernelSpace (size : BitVec 32) : Option (Space × Nat) :=
  let size := pageAlign ((size.toNat + 4095) % 2 ^ 32)
  if size > h.heapFree then some (h, 0)
  else
    (getSmallBlock h size).map fun (edi, blockInd) =>
      if edi = .null then (h, 0)
      else if h.flags edi ≠ memBlockFree then (h, 0)
      else if h.size edi = size then
        let h := clearIfEmpty (listDel h edi) blockInd
        let h := addToUsed h edi
        (h, h.base edi)
      else
        let esi := h.nextMemblock
        if esi = .null then (h, 0)
        else
          let h := splitBlock h esi edi size
          let h := moveBlock h edi blockInd (calcIndex (h.size edi))
          let h := addToUsed h esi
          (h, h.base esi)

/-! ## `free_kernel_space` -/

def freeMemBlock (eax : Node) : Space :=
  { h with
      next := update h.next eax h.nextMemblock
      nextMemblock := eax
      prev := update h.prev eax .null
      nextBlock := update h.nextBlock eax .null
      prevBlock := update h.prevBlock eax .null
      base := update h.base eax 0
      flags := update h.flags eax 0
      freeBlocks := h.freeBlocks + 1 }

def mergeNext (esi : Node) : Space :=
  let edi := h.nextBlock esi
  if h.flags edi ≠ memBlockFree then h
  else
    let h := listDel h edi
    let edx := h.nextBlock edi
    let ecx := h.size edi
    let h := { h with
      nextBlock := update h.nextBlock esi edx
      prevBlock := update h.prevBlock edx esi
      size := update h.size esi ((h.size esi + ecx) % 2 ^ 32) }
    freeMemBlock (clearIfEmpty h (calcIndex ecx)) edi

def mergePrev (esi edi : Node) : Space :=
  let edx := h.nextBlock esi
  let h := { h with
    nextBlock := update h.nextBlock edi edx
    prevBlock := update h.prevBlock edx edi }
  let h := freeMemBlock h esi
  let ecx := h.size edi
  let eax := (h.size esi + ecx) % 2 ^ 32
  moveBlock { h with size := update h.size edi eax } edi (calcIndex ecx) (calcIndex eax)

/-- The result is -1, or 0 if no used block starts at `base`. -/
def freeKernelSpace (base : BitVec 32) : Option (Space × BitVec 32) :=
  (delFromUsed h base.toNat).map fun (h, esi) =>
    if esi = .null then (h, 0)
    else
      let h := { h with heapFree := (h.heapFree + h.size esi) % 2 ^ 32 }
      let h := mergeNext h esi
      let edi := h.prevBlock esi
      if h.flags edi ≠ memBlockFree then
        let h := { h with flags := update h.flags esi memBlockFree }
        (addBlock h esi (calcIndex (h.size esi)), -1)
      else (mergePrev h esi edi, -1)

end Kolibri.KernelHeap
