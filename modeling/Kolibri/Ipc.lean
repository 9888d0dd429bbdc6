import Kolibri.Bitmap.Code
import Kolibri.Paging

/-! # Inter-process messages (`sys_IPC` in `core/memory.inc`)

The sender writes the message through a window of the kernel. Positions are offsets from its start
`used_buf`, which is page aligned (or 0, if `alloc_kernel_space` fails, which nobody tests).
-/

namespace Kolibri.Ipc

open Bytes Bitmap Paging Function List

structure Hdll where
  base : BitVec 32
  size : BitVec 32

structure Proc where
  pdt : Nat → BitVec 32
  ptes : Nat → BitVec 32
  hdlls : List Hdll

/-- `process` is 0 for a slot without a process. -/
structure Slot where
  state : BitVec 8
  tid : BitVec 32
  process : Nat
  ipcStart : BitVec 32
  ipcSize : BitVec 32
  occurredEvents : BitVec 32

structure World where
  slots : Nat → Slot
  threadCount : BitVec 32
  currentSlot : Nat
  procs : Nat → Proc
  bitmap : PhysBitmap
  pat : Bool
  pge : Bool

def tstateFree : BitVec 8 := 9
def eventIpc : BitVec 32 := 0x40

/-! ## Finding the receiver (`pid_to_slot.rs`) -/

def pidToSlotLoop (slots : Nat → Slot) (pid ebx : BitVec 32) : Nat → BitVec 32 → BitVec 32
  | 0, _ => 0
  | fuel + 1, ecx =>
    if ecx.toInt ≤ ebx.toInt then
      let entry := slots (ecx >>> 8).toNat
      if entry.state ≠ tstateFree ∧ entry.tid = pid then ecx >>> 8
      else pidToSlotLoop slots pid ebx fuel (ecx + 256)
    else 0

variable (w : World)

def pidToSlot (pid : BitVec 32) : BitVec 32 :=
  pidToSlotLoop w.slots pid (w.threadCount <<< 8) w.threadCount.toNat 256

/-! ## Mapping the receiver's pages -/

structure Maps where
  bitmap : PhysBitmap
  proc : Proc

def Maps.setPte (m : Maps) (page : Nat) (entry : BitVec 32) : Maps :=
  { m with proc := { m.proc with ptes := update m.proc.ptes page entry } }

def mapNewPage (mask : BitVec 32) (m : Maps) (page : Nat) (reqAccess : BitVec 32) : Maps × Option (BitVec 32) :=
  let (bitmap, eax) := allocPage m.bitmap
  let m := { m with bitmap }
  if eax = 0 then (m, none)
  else
    let entry := eax ||| pgUwr
    (m.setPte page entry, some (mapPage mask entry reqAccess))

/-- `none` is failure (the carry flag cleared). -/
def safeMapPage (mask : BitVec 32) (m : Maps) (page : Nat) (reqAccess ofs : BitVec 32) : Maps × Option (BitVec 32) :=
  let pte := m.proc.ptes page
  let found := fun (dll : Hdll) => decide ((ofs &&& ~~~0xFFF#32) - dll.base < dll.size)
  if pte &&& pgRead = 0 then
    if pte &&& 2 = 0 then (m, none) else mapNewPage mask m page reqAccess
  else if pte &&& pgWrite ≠ 0 ∨ reqAccess &&& pgWrite = 0 then
    (m, some (mapPage mask pte reqAccess))
  else if m.proc.hdlls.any found then mapNewPage mask m page reqAccess
  else (m, none)

def mapMemIpcLoop (mask reqAccess : BitVec 32) :
    Nat → Maps → Nat → BitVec 32 → Maps × List (BitVec 32)
  | 0, m, _, _ => (m, [])
  | ecx + 1, m, page, ofs =>
    match safeMapPage mask m page reqAccess ofs with
    | (m, none) => (m, [])
    | (m, some entry) =>
      if ecx = 0 then (m, [entry])
      -- The next page table may be missing.
      else if (page + 1) % 1024 = 0 ∧ m.proc.pdt ((page + 1) / 1024) &&& ~~~0xFFF#32 = 0 then (m, [entry])
      else
        let (m, rest) := mapMemIpcLoop mask reqAccess ecx m (page + 1) (ofs + 4096)
        (m, entry :: rest)

def mapMemIpc (slot : Nat) (ofs bufSize reqAccess : BitVec 32) : World × List (BitVec 32) :=
  let process := (w.slots slot).process
  if bufSize = 0 then (w, [])
  else if process = 0 then (w, [])
  else if (w.procs process).pdt (ofs.toNat / 4096 / 1024) &&& ~~~0xFFF#32 = 0 then (w, [])
  else
    let ecx := ((bufSize + 4095) >>> 12) + 1
    let (m, mapped) := mapMemIpcLoop (pteValidMask w.pat w.pge) reqAccess ecx.toNat
      ⟨w.bitmap, w.procs process⟩ (ofs.toNat / 4096) ofs
    ({ w with bitmap := m.bitmap, procs := update w.procs process m.proc }, mapped)

/-! ## Sending -/

def storeBytes (off : Nat) (bytes : List (BitVec 8)) : List (Nat × BitVec 8) :=
  bytes.zipIdx.map fun (byte, i) => ((off + i) % 2 ^ 32, byte)

def dwordBytes (word : BitVec 32) : List (BitVec 8) :=
  (List.range 4).map fun i => word.extractLsb' (8 * i) 8

structure Send where
  eax : BitVec 32
  mapped : List (BitVec 32)
  stores : List (Nat × BitVec 8)

def record (tid msgAddr msgSize : BitVec 32) (msg : Nat → BitVec 8) : List (BitVec 8) :=
  dwordBytes tid ++ dwordBytes msgSize ++ (List.range msgSize.toNat).map fun i => msg ((msgAddr.toNat + i) % 2 ^ 32)

/-- `window` is what the sender sees through the window, `msg` its own memory. -/
def sysIpcSend (window msg : Nat → BitVec 8) (pid msgAddr msgSize : BitVec 32) : World × Send :=
  let dstSlot := (pidToSlot w pid).toNat
  if dstSlot = 0 then (w, ⟨4, [], []⟩)
  else
    let edi := (w.slots dstSlot).ipcStart
    let bufSize := (w.slots dstSlot).ipcSize
    if edi = 0 then (w, ⟨1, [], []⟩)
    else
      let dstOffset := edi.toNat % 4096
      let (w, mapped) := mapMemIpc w dstSlot edi bufSize pgSwr
      if readU32 window dstOffset ≠ 0 then (w, ⟨2, mapped, []⟩)
      else
        let edx := readU32 window (dstOffset + 4)
        let ebx := edx + 8 + msgSize
        if ebx > bufSize then (w, ⟨3, mapped, []⟩)
        else
          let tid := (w.slots w.currentSlot).tid
          let stores := storeBytes (dstOffset + 4) (dwordBytes ebx) ++
            storeBytes (dstOffset + edx.toNat) (record tid msgAddr msgSize msg)
          let slot := w.slots dstSlot
          let events := slot.occurredEvents ||| eventIpc
          ({ w with slots := update w.slots dstSlot { slot with occurredEvents := events } }, ⟨0, mapped, stores⟩)

/-- Subfunction 1 takes any address and any size. It also reads one byte of each page. -/
def setIpcArea (ecx edx : BitVec 32) : World :=
  let slot := w.slots w.currentSlot
  { w with slots := update w.slots w.currentSlot { slot with ipcStart := ecx, ipcSize := edx } }

def sysIpc (window msg : Nat → BitVec 8) (ebx ecx edx esi : BitVec 32) : World × BitVec 32 × Option Send :=
  if ebx = 1 then (setIpcArea w ecx edx, 0, none)
  else if ebx = 2 then
    let (w, send) := sysIpcSend w window msg ecx edx esi
    (w, send.eax, some send)
  else (w, -1, none)

section Send

variable (w : World) (window msg : Nat → BitVec 8) (pid msgAddr msgSize : BitVec 32)

def dst : Slot := w.slots (pidToSlot w pid).toNat

def used : BitVec 32 := readU32 window ((dst w pid).ipcStart.toNat % 4096 + 4)

/-- Every store lands in the receiver's buffer, and the answer 0 means that the record is there. -/
structure Contained (r : Send) : Prop where
  inside : ∀ st ∈ r.stores, st.1 / 4096 < r.mapped.length ∧
    (dst w pid).ipcStart.toNat ≤ (dst w pid).ipcStart.toNat / 4096 * 4096 + st.1 ∧
    (dst w pid).ipcStart.toNat / 4096 * 4096 + st.1 < (dst w pid).ipcStart.toNat + (dst w pid).ipcSize.toNat ∧
    (dst w pid).ipcStart.toNat / 4096 * 4096 + st.1 < 0x80000000
  complete : r.eax = 0 → (used w window pid).toNat + 8 + msgSize.toNat ≤ (dst w pid).ipcSize.toNat ∧
    ∀ i byte, (record (w.slots w.currentSlot).tid msgAddr msgSize msg)[i]? = some byte →
      ((dst w pid).ipcStart.toNat % 4096 + (used w window pid).toNat + i, byte) ∈ r.stores

variable {w window pid msgSize}

end Send

def buffer (off : Nat) (used : BitVec 32) : Nat → BitVec 8 := writeU32 (fun _ => 0) (off + 4) used

end Kolibri.Ipc
