import Kolibri.Lib.Buffer
import Kolibri.Lib.Registers

/-! # Run lists of NTFS (`ntfs_create_mcb.rs`, `ntfs_mcb.rs`)

A run is a header with two widths, the size and the start. A zero ends the list.
-/

namespace Kolibri.Ntfs

open Registers Buffer

/-! ## The encoder -/

def offSizeWithHeader : Nat := 4
def offRecordRealSize : Nat := 0x18
def offRecordAllocatedSize : Nat := 0x1C

def widthLoop : Nat → BitVec 32 → Nat
  | 0, _ => 0
  | fuel + 1, eax =>
    let eax := eax >>> 8
    if eax = 0 then 1 else widthLoop fuel eax + 1

def mcbStartWidth (start : BitVec 32) : Nat :=
  let eax := start <<< 1
  widthLoop 4 (if start.getLsbD 31 then ~~~ eax else eax)

def mcbSizeWidth (size : BitVec 32) : Nat := widthLoop 4 (size <<< 1)

structure CreateMcbResult where
  /-- Where the terminator stands. -/
  destOff : Nat
  sizeWithHeader : BitVec 32
  recordRealSize : BitVec 32
  needCld : Bool
  wrote : Bool

def slide : Nat → Buffer → Nat → Nat → Option Buffer
  | 0, frs, _, _ => some frs
  | count + 1, frs, src, dst => do
    let v ← frs.readU32? src
    let frs ← frs.writeU32? dst v
    slide count frs (src - 4) (dst - 4)

def frsSlideMakeRoom (frs : Buffer) (destOff newReal : Nat) : Option Buffer :=
  -- The count wraps, and the copy runs out of the buffer.
  if newReal < destOff + 8 then none
  else slide ((newReal - destOff - 8) / 4) frs (newReal - 12) (newReal - 4)

def mcbHeader (startW sizeW : Nat) : BitVec 8 :=
  (BitVec.ofNat 8 startW &&& 0x0F) <<< 4 ||| (BitVec.ofNat 8 sizeW &&& 0x0F)

def writeRun (start size : BitVec 32) (frs : Buffer) (attrOff destOff : Nat) (needCld : Bool) :
    Option (CreateMcbResult × Buffer) := do
  let startW := mcbStartWidth start
  let sizeW := mcbSizeWidth size
  let frs ← frs.set? destOff (mcbHeader startW sizeW)
  let curDest := destOff + 1
  let frs ← writeLeBytes sizeW frs curDest size
  let curDest := curDest + sizeW
  let frs ← writeLeBytes startW frs curDest start
  let curDest := curDest + startW
  let frs ← frs.set? curDest 0
  let sizeWithHeader ← frs.readU32? (attrOff + offSizeWithHeader)
  let recordRealSize ← frs.readU32? offRecordRealSize
  some ({ destOff := curDest, sizeWithHeader, recordRealSize, needCld, wrote := true }, frs)

def bumpSize (sizeWithHeader : BitVec 32) : BitVec 32 := setLow16 sizeWithHeader (low16 sizeWithHeader + 8)

def needExtend (start size : BitVec 32) (attrSize : BitVec 32) (attrOff destOff : Nat) : Prop :=
  let newEnd := BitVec.ofNat 32 destOff + BitVec.ofNat 32 (mcbStartWidth start) + 1 +
    BitVec.ofNat 32 (mcbSizeWidth size)
  let attrEnd := BitVec.ofNat 32 attrOff + attrSize
  ¬ newEnd < attrEnd
  deriving Decidable

def createMcbEntry (start size : BitVec 32) (frs : Buffer) (attrOff destOff : Nat) :
    Option (CreateMcbResult × Buffer) := do
  let attrSize ← frs.readU32? (attrOff + offSizeWithHeader)
  let recordReal ← frs.readU32? offRecordRealSize
  let recordAlloc ← frs.readU32? offRecordAllocatedSize
  if needExtend start size attrSize attrOff destOff then
    let sizeWithHeader := bumpSize attrSize
    let frs ← frs.writeU32? (attrOff + offSizeWithHeader) sizeWithHeader
    let newReal := recordReal + 8
    if recordAlloc < newReal then
      some ({ destOff, sizeWithHeader, recordRealSize := recordReal, needCld := false, wrote := false }, frs)
    else
      let frs ← frs.writeU32? offRecordRealSize newReal
      let frs ← frsSlideMakeRoom frs destOff newReal.toNat
      writeRun start size frs attrOff destOff true
  else writeRun start size frs attrOff destOff false

/-! ## The decoder -/

structure McbDecodeResult where
  more : Bool
  consumed : Nat
  deriving DecidableEq

/-- The answer and the caller's buffer. A rejected entry leaves what was written so far. -/
def ntfsDecodeMcbEntry (entry : Nat → BitVec 8) (len : Nat) (buf : Nat → BitVec 8) :
    McbDecodeResult × (Nat → BitVec 8) :=
  if len = 0 then (⟨false, 0⟩, buf)
  else
    let header := entry 0
    let lengthLen := (header &&& 0x0F).toNat
    if header = 0 then (⟨false, 1⟩, buf)
    else if 8 < lengthLen then (⟨false, 1⟩, buf)
    else if len < 1 + lengthLen then (⟨false, 1⟩, buf)
    else
      let buf := fun i => if i < lengthLen then entry (1 + i) else buf i
      let lastLenByte := if lengthLen = 0 then header else entry lengthLen
      if 0x80 ≤ lastLenByte then (⟨false, 1 + lengthLen⟩, buf)
      else
        let buf := overlay buf 0 (leBytes 8 (leValue buf 0 lengthLen))
        let clusterLen := (header >>> 4).toNat
        let clusterOff := 1 + lengthLen
        if 8 < clusterLen then (⟨false, 1 + lengthLen⟩, buf)
        else if len < clusterOff + clusterLen then (⟨false, 1 + lengthLen⟩, buf)
        else
          let cluster := leValue entry clusterOff clusterLen
          let lastClusterRef := if clusterLen = 0 then lastLenByte else entry (clusterOff + clusterLen - 1)
          let cluster :=
            if 0x80 ≤ lastClusterRef ∧ clusterLen < 8 then cluster ||| BitVec.allOnes 64 <<< (8 * clusterLen)
            else cluster
          (⟨true, 1 + lengthLen + clusterLen⟩, overlay buf 8 (leBytes 8 cluster))

end Kolibri.Ntfs
