import Mathlib

/-! # The disk cache (`blkdev/disk_cache.inc`)

Each function here runs under the lock of the disk or touches no item. Sector data is of any type `α` and
stands in the item beside the number. Slots count from 1. The free pages, `kernel_alloc` and the driver are
a `World`, which answers questions by number.
-/

namespace Kolibri.DiskCache

open Function

/-- `CACHE_ITEM_*`. -/
inductive Status
  | empty
  | copy
  | modified
  deriving DecidableEq

structure Item (α : Type*) where
  sector : BitVec 64
  status : Status
  data : α

/-- `DISKCACHE`; `pointer` says whether there is one. -/
structure Cache (α : Type*) where
  pointer : Bool
  sadSize : Nat
  sadSize_pos : 0 < sadSize
  sadSize_lt : sadSize < 2 ^ 32
  searchStart : Nat
  sectorSizeLog : Nat
  item : Nat → Item α

def statusOk : BitVec 32 := 0
def statusEndOfMedia : BitVec 32 := 3
def statusNoMemory : BitVec 32 := 4

def cacheMaxAllocPages : Nat := 1024
def cacheLegacyReadSize : Nat := 16

structure Failure where
  eax : BitVec 32
  nonzero : eax ≠ 0
  numSectors : Nat

/-- `edx` is what a call leaves in the register: drivers need not keep it. -/
structure World where
  pagesFree : Nat → Nat
  kernelAlloc : Nat → Bool
  read : Nat → BitVec 64 → Nat → Option Failure
  write : Nat → BitVec 64 → Nat → Option Failure
  edx : Nat → BitVec 32

def errorCode : Option Failure → BitVec 32
  | none => statusOk
  | some e => e.eax

def sectorsDone (n : Nat) : Option Failure → Nat
  | none => n
  | some e => min e.numSectors n

variable (w : World)

/-- Sectors of the temporary buffer for `n`: at most half of the free memory and 4 MB. -/
def tempBuffer (time sectorSizeLog n : Nat) : Option Nat :=
  let pages := w.pagesFree time / 2
  let sectors := min pages cacheMaxAllocPages * 4096 / 2 ^ sectorSizeLog
  if pages = 0 ∨ sectors = 0 then none
  else if w.kernelAlloc time then some (min sectors n)
  else none

variable {α : Type*}

namespace Cache

def setStatus (c : Cache α) (k : Nat) (status : Status) : Cache α :=
  { c with item := update c.item k { c.item k with status } }

def fill (c : Cache α) (k : Nat) (status : Status) (data : α) : Cache α :=
  { c with item := update c.item k { c.item k with status, data } }

def claim (c : Cache α) (k : Nat) (sector : BitVec 64) : Cache α :=
  { c with
    searchStart := k
    item := update c.item k { c.item k with sector, status := .empty } }

def markCopies (c : Cache α) (slots : List Nat) : Cache α :=
  slots.foldl (fun c k => c.setStatus k .copy) c

end Cache

variable (c : Cache α)

def cacheLookupRead (sector : BitVec 64) : Option Nat :=
  (List.range' 1 c.sadSize).find? fun k => (c.item k).status ≠ .empty ∧ (c.item k).sector = sector

/-! ## `write_cache64` -/

structure Chain where
  start : Nat
  size : Nat
  sequential : Bool

def lookupModified (sector : BitVec 64) : Option Nat :=
  (cacheLookupRead c sector).filter fun k => (c.item k).status = .modified

def previousSlot (sector : BitVec 64) (esi : Nat) : Option Nat :=
  if esi ≠ 0 ∧ (c.item esi).sector = sector then
    if (c.item esi).status = .modified then some esi else none
  else lookupModified c sector

def lookBackward (c : Cache α) : Nat → BitVec 64 → Nat → Chain → Option Chain
  | 0, _, _, _ => none
  | fuel + 1, sector, esi, chain =>
    let chain := { chain with start := esi, size := chain.size + 1 }
    match previousSlot c (sector - 1) (esi - 1) with
    | none => some chain
    | some esi => lookBackward c fuel (sector - 1) esi chain

def lookForward (c : Cache α) : Nat → BitVec 64 → Nat → Chain → Option Chain
  | 0, _, _, _ => none
  | fuel + 1, sector, esi, chain =>
    let chain := { chain with size := chain.size + 1 }
    if esi + 1 ≤ c.sadSize ∧ (c.item (esi + 1)).sector = sector + 1 then
      if (c.item (esi + 1)).status = .modified then lookForward c fuel (sector + 1) (esi + 1) chain
      else some chain
    else
      match lookupModified c (sector + 1) with
      | none => some chain
      | some esi => lookForward c fuel (sector + 1) esi { chain with sequential := false }

/-- Steps 5 to 7: the chain around the modified item `esi`. -/
def findChain (esi : Nat) : Option Chain := do
  let sector := (c.item esi).sector
  let chain : Chain := ⟨esi, 0, true⟩
  let chain ←
    match lookupModified c (sector - 1) with
    | none => some chain
    | some k => lookBackward c (c.sadSize + 1) (sector - 1) k { chain with sequential := false }
  lookForward c (c.sadSize + 1) sector esi chain

structure WriteCall (α : Type*) where
  before : Cache α
  time : Nat
  start : BitVec 64
  slots : List Nat
  buffer : List α
  scattered : Bool
  numSectors : Nat

structure Flush (α : Type*) where
  cache : Cache α
  time : Nat
  calls : List (WriteCall α)

def callDriver (f : Flush α) (slots : List Nat) (start : BitVec 64) (scattered : Bool)
    (ok failed : Cache α) : Flush α × BitVec 32 :=
  let answer := w.write f.time start slots.length
  let call : WriteCall α :=
    { before := f.cache, time := f.time, start, slots, scattered
      buffer := slots.map fun k => (f.cache.item k).data
      numSectors := sectorsDone slots.length answer }
  ({ cache := if answer.isNone then ok else failed, time := f.time + 1, calls := f.calls ++ [call] },
    errorCode answer)

def onSuccess (r : Option (Flush α × BitVec 32)) (next : Flush α → Option (Flush α × BitVec 32)) :
    Option (Flush α × BitVec 32) :=
  match r with
  | none => none
  | some (f, eax) => if eax ≠ 0 then some (f, eax) else next f

/-- Step 9. The items are marked behind the call. -/
def writeSequential (chain : Chain) (f : Flush α) : Flush α × BitVec 32 :=
  let slots := List.range' chain.start chain.size
  callDriver w f slots (f.cache.item chain.start).sector false (f.cache.markCopies slots) f.cache

/-- Steps 13d to 13f: where the next sector of the chain is. The status is not looked at in 13d. -/
def nextSlot (k : Nat) : Nat :=
  let sector := (c.item k).sector + 1
  if k + 1 ≤ c.sadSize ∧ (c.item (k + 1)).sector = sector then k + 1
  else (cacheLookupRead c sector).getD (c.sadSize + 1)

/-- Step 13: the slots whose data is copied, the cache with their marks, and the next slot. -/
def copyLoop : Nat → Nat → Cache α → List Nat × Cache α × Nat
  | 0, k, c => ([], c, k)
  | n + 1, k, c =>
    let c := c.setStatus k .copy
    let (slots, c, k') := copyLoop n (nextSlot c k) c
    (k :: slots, c, k')

/-- Steps 11 to 15. The items are marked in front of each call. -/
def writeIterations (w : World) : Nat → Nat → Nat → Nat → Flush α → Option (Flush α × BitVec 32)
  | 0, _, _, _, _ => none
  | fuel + 1, chainSize, iterationSize, k, f =>
    let n := min iterationSize chainSize
    let (slots, c, k') := copyLoop n k f.cache
    onSuccess (some (callDriver w f slots (f.cache.item k).sector true c c)) fun f =>
      if chainSize - n = 0 then some (f, statusOk) else writeIterations w fuel (chainSize - n) n k' f

/-- Steps 10 to 16. -/
def writeNonSequential (chain : Chain) (f : Flush α) : Option (Flush α × BitVec 32) :=
  match tempBuffer w f.time f.cache.sectorSizeLog chain.size with
  | none => some ({ f with time := f.time + 1 }, statusNoMemory)
  | some iterationSize =>
    writeIterations w chain.size chain.size iterationSize chain.start { f with time := f.time + 1 }

/-- The main loop, with `sizeLeft` items to look at. -/
def look (w : World) : Nat → Nat → Flush α → Option (Flush α × BitVec 32)
  | _, 0, f => some (f, statusOk)
  | 0, _ + 1, _ => none
  | fuel + 1, sizeLeft + 1, f =>
    let esi := f.cache.sadSize - sizeLeft
    if (f.cache.item esi).status = .modified then
      match findChain f.cache esi with
      | none => none
      | some chain =>
        if chain.sequential then
          onSuccess (some (writeSequential w chain f)) fun f => look w fuel (sizeLeft + 1 - chain.size) f
        else onSuccess (writeNonSequential w chain f) fun f => look w fuel sizeLeft f
    else look w fuel sizeLeft f

def writeCache64 (time : Nat) : Option (Flush α × BitVec 32) :=
  if c.pointer then look w c.sadSize c.sadSize ⟨c, time, []⟩ else some (⟨c, time, []⟩, statusOk)

/-! ## The disk -/

inductive Which
  | sys
  | app
  deriving DecidableEq

def Which.other : Which → Which
  | sys => app
  | app => sys

structure Disk (α : Type*) where
  cache : Which → Cache α
  sectors : BitVec 64 → α
  capacity : BitVec 64
  time : Nat

structure Partition where
  firstSector : BitVec 64
  length : BitVec 64

def writeSectors (sectors : BitVec 64 → α) : BitVec 64 → List α → BitVec 64 → α
  | _, [] => sectors
  | s, x :: xs => writeSectors (update sectors s x) (s + 1) xs

def readSectors (sectors : BitVec 64 → α) : BitVec 64 → Nat → List α
  | _, 0 => []
  | s, n + 1 => sectors s :: readSectors sectors (s + 1) n

def WriteCall.apply (sectors : BitVec 64 → α) (call : WriteCall α) : BitVec 64 → α :=
  writeSectors sectors call.start (call.buffer.take call.numSectors)

def Disk.setCache (d : Disk α) (i : Which) (c : Cache α) : Disk α :=
  { d with cache := update d.cache i c }

variable (i : Which) (d : Disk α)

def flush : Option (Disk α × BitVec 32) := do
  let (f, eax) ← writeCache64 w (d.cache i) d.time
  some ({ d.setCache i f.cache with
    sectors := f.calls.foldl WriteCall.apply d.sectors
    time := f.time }, eax)

/-! ## `cache_lookup_write` -/

/-- One eighth of the slots. With fewer than 8 the counter starts at 0 and wraps. -/
def searchWindow : Nat :=
  if c.sadSize / 8 = 0 then 2 ^ 32 else c.sadSize / 8

def searchForEmpty (c : Cache α) : Nat → Nat → Option Nat
  | 0, _ => none
  | eax + 1, ecx =>
    let ecx := if ecx + 1 ≤ c.sadSize then ecx + 1 else 1
    if (c.item ecx).status ≠ .modified then some ecx else searchForEmpty c eax ecx

structure Located where
  slot : Nat
  edx : BitVec 32

def searchAgain (w : World) (i : Which) (sector : BitVec 64) :
    Nat → BitVec 32 → Disk α → Option (Disk α × Except (BitVec 32) Located)
  | 0, _, _ => none
  | fuel + 1, edx, d =>
    let c := d.cache i
    match searchForEmpty c (searchWindow c) c.searchStart with
    | some k => some (d.setCache i (c.claim k sector), .ok ⟨k, edx⟩)
    | none => do
      let (d, eax) ← flush w i d
      if eax ≠ 0 then some (d, .error eax) else searchAgain w i sector fuel (w.edx d.time) d

variable (sector : BitVec 64)

def cacheLookupWrite (d : Disk α) : Option (Disk α × Except (BitVec 32) Located) :=
  let edx := sector.extractLsb' 32 32
  match cacheLookupRead (d.cache i) sector with
  | some k => some (d, .ok ⟨k, edx⟩)
  | none => searchAgain w i sector ((d.cache i).sadSize + 1) edx d

/-! ## `fs_write64` -/

/-- `fs_read32` has no `ecx`: here it counts what was read. -/
structure Response (α : Type*) where
  eax : BitVec 32
  ecx : Nat
  buffer : List α
  deriving DecidableEq

/-- Step 2: the sectors that fit in the partition, and the status if these are fewer. -/
def fitPartition (p : Partition) (sector : BitVec 64) (n : Nat) : Nat × BitVec 32 :=
  let left := (p.length - sector).toNat
  if n ≤ left then (n, statusOk) else (left, statusEndOfMedia)

def writeSector (x : α) :
    Option (Disk α × BitVec 32) := do
  let (d, located) ← cacheLookupWrite w i sector d
  match located with
  | .error eax => some (d, eax)
  | .ok r =>
    let d := d.setCache i ((d.cache i).fill r.slot .modified x)
    match cacheLookupRead (d.cache i.other) sector with
    | none => some (d, statusOk)
    | some k => some (d.setCache i.other ((d.cache i.other).setStatus k .empty), statusOk)

/-- Step 6: the status, and the sectors that are left. -/
def writeLoop (w : World) (i : Which) : BitVec 64 → List α → Disk α → Option (Disk α × BitVec 32 × Nat)
  | _, [], d => some (d, statusOk, 0)
  | sector, x :: xs, d => do
    let (d, eax) ← writeSector w i d sector x
    if eax ≠ 0 then some (d, eax, xs.length + 1) else writeLoop w i (sector + 1) xs d

def fsWrite64 (p : Partition) (sector : BitVec 64) (buffer : List α)
    (d : Disk α) : Option (Disk α × Response α) :=
  if p.length < sector then some (d, ⟨statusEndOfMedia, 0, []⟩)
  else
    let (n, error) := fitPartition p sector buffer.length
    let xs := buffer.take n
    let start := p.firstSector + sector
    if n = 0 then some (d, ⟨error, 0, []⟩)
    else if (d.cache i).pointer then do
      let (d, eax, left) ← writeLoop w i start xs d
      some (d, ⟨if eax ≠ 0 then eax else error, n - left, []⟩)
    else
      let answer := w.write d.time start n
      let written := sectorsDone n answer
      some ({ d with sectors := writeSectors d.sectors start (xs.take written), time := d.time + 1 },
        ⟨errorCode answer, written, []⟩)

/-! ## `fs_read64` -/

/-- Step 6: what the cache has of the sectors from the first one on. -/
def lookupLoop (c : Cache α) : BitVec 64 → Nat → List α
  | _, 0 => []
  | sector, n + 1 =>
    match cacheLookupRead c sector with
    | none => []
    | some k => (c.item k).data :: lookupLoop c (sector + 1) n

/-- Step 12: what the caller gets for the sectors `xs` that were read, and the next sector. -/
def storeToCache (w : World) (i : Which) :
    BitVec 64 → List α → Disk α → Option (Disk α × BitVec 64 × List α)
  | sector, [], d => some (d, sector, [])
  | sector, x :: xs, d => do
    let (d, located) ← cacheLookupWrite w i sector d
    match located with
    | .error _ => some (d, sector, x :: xs)
    | .ok r =>
      if ((d.cache i).item r.slot).status = .modified then
        let (d', next, ys) ← storeToCache w i (sector + 1) xs d
        some (d', next, ((d.cache i).item r.slot).data :: ys)
      else
        let (d', next, ys) ← storeToCache w i (sector + 1) xs
          (d.setCache i ((d.cache i).fill r.slot .copy x))
        some (d', next, x :: ys)

/-- Steps 8 to 14: the status, the sectors that are left, and the data. -/
def readLoop (w : World) (i : Which) :
    Nat → Nat → BitVec 64 → Nat → BitVec 32 → Disk α → Option (Disk α × BitVec 32 × Nat × List α)
  | 0, _, _, _, _, _ => none
  | fuel + 1, iterationSize, sector, numSectors, error, d => do
    let n := min iterationSize numSectors
    let answer := w.read d.time sector n
    let error := if answer.isNone then error else errorCode answer
    let got := sectorsDone n answer
    let (d, sector, ys) ← storeToCache w i sector (readSectors d.sectors sector got) { d with time := d.time + 1 }
    if got ≠ n then some (d, error, numSectors, ys)
    else if numSectors - n = 0 then some (d, error, 0, ys)
    else
      let (d, error, left, zs) ← readLoop w i fuel n sector (numSectors - n) error d
      some (d, error, left, ys ++ zs)

def fsRead64 (p : Partition) (sector : BitVec 64) (numSectors : Nat)
    (d : Disk α) : Option (Disk α × Response α) :=
  if p.length < sector then some (d, ⟨statusEndOfMedia, 0, []⟩)
  else
    let (n, error) := fitPartition p sector numSectors
    let start := p.firstSector + sector
    if n = 0 then some (d, ⟨error, 0, []⟩)
    else if (d.cache i).pointer then
      let xs := lookupLoop (d.cache i) start n
      let left := n - xs.length
      if left = 0 then some (d, ⟨error, n, xs⟩)
      else
        match tempBuffer w d.time (d.cache i).sectorSizeLog left with
        | none => some ({ d with time := d.time + 1 }, ⟨statusNoMemory, xs.length, xs⟩)
        | some iterationSize => do
          let (d, error, left, ys) ← readLoop w i left iterationSize (start + BitVec.ofNat 64 xs.length)
            left error { d with time := d.time + 1 }
          some (d, ⟨error, n - left, xs ++ ys⟩)
    else
      let answer := w.read d.time start n
      let got := sectorsDone n answer
      some ({ d with time := d.time + 1 },
        ⟨if answer.isNone then error else errorCode answer, got, readSectors d.sectors start got⟩)

/-! ## `fs_read32` -/

/-- Steps 7 to 12. The caller's sector is copied before the sectors are stored. -/
def prefetch (d : Disk α) : Option (Disk α × Response α) :=
  if w.kernelAlloc d.time then do
    let answer := w.read (d.time + 1) sector cacheLegacyReadSize
    let xs := readSectors d.sectors sector (sectorsDone cacheLegacyReadSize answer)
    let d := { d with time := d.time + 2 }
    if xs.length = 0 then some (d, ⟨errorCode answer, 0, []⟩)
    else
      let (d, _, _) ← storeToCache w i sector xs d
      some (d, ⟨statusOk, 1, xs.take 1⟩)
  else some ({ d with time := d.time + 1 }, ⟨statusNoMemory, 0, []⟩)

/-- Steps 13 to 15. The high half of the sector is taken from `edx` as the lookup has left it. -/
def floppy (d : Disk α) : Option (Disk α × Response α) := do
  let (d, located) ← cacheLookupWrite w i sector d
  match located with
  | .error eax => some (d, ⟨eax, 0, []⟩)
  | .ok r =>
    let start := r.edx ++ sector.setWidth 32
    let answer := w.read d.time start 1
    let d := { d with time := d.time + 1 }
    if sectorsDone 1 answer = 1 then
      let x := d.sectors start
      some (d.setCache i ((d.cache i).fill r.slot .copy x), ⟨statusOk, 1, [x]⟩)
    else some (d, ⟨errorCode answer, 0, []⟩)

def isFloppy : Prop := d.capacity.toNat < 3 * 2 ^ 11
  deriving Decidable

def fsRead32 (p : Partition) (sector : BitVec 32) (d : Disk α) : Option (Disk α × Response α) :=
  if p.length.toNat ≤ sector.toNat then some (d, ⟨statusEndOfMedia, 0, []⟩)
  else
    let start := p.firstSector + sector.setWidth 64
    if (d.cache i).pointer then
      match cacheLookupRead (d.cache i) start with
      | some k => some (d, ⟨statusOk, 1, [((d.cache i).item k).data]⟩)
      | none => if isFloppy d then floppy w i start d else prefetch w i start d
    else
      let answer := w.read d.time start 1
      let got := sectorsDone 1 answer
      some ({ d with time := d.time + 1 }, ⟨errorCode answer, got, readSectors d.sectors start got⟩)

/-! ## Requests -/

/-- The sector is relative to the partition. `fs_write32` is `fs_write64` for one sector. -/
inductive Request (α : Type*)
  | write64 (i : Which) (p : Partition) (sector : BitVec 64) (buffer : List α)
  | read64 (i : Which) (p : Partition) (sector : BitVec 64) (numSectors : Nat)
  | read32 (i : Which) (p : Partition) (sector : BitVec 32)

def serve : Request α → Option (Disk α × Response α)
  | .write64 i p sector buffer => fsWrite64 w i p sector buffer d
  | .read64 i p sector numSectors => fsRead64 w i p sector numSectors d
  | .read32 i p sector => fsRead32 w i p sector d

/-- A request that does not return leaves no response. -/
def step (r : Request α) : Disk α × Option (Response α) :=
  match serve w d r with
  | none => (d, none)
  | some (d, response) => (d, some response)

end Kolibri.DiskCache
