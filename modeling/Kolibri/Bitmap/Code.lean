import Kolibri.Lib.Bytes

/-! # The physical page bitmap (`phys_bitmap.rs`)

One bit for each page, set when it is free. `page_start` and `page_end` are byte offsets from `map`.
-/

namespace Kolibri.Bitmap

open Bytes

structure PhysBitmap where
  map : Nat → BitVec 8
  pageStart : BitVec 32
  pageEnd : BitVec 32
  pagesFree : BitVec 32

/-! ## Release -/

/-- The new map, and 1 if the page was taken before. -/
def bitmapBtsFreeDelta (pageIndex : BitVec 32) (map : Nat → BitVec 8) : (Nat → BitVec 8) × BitVec 32 :=
  let byteIndex := (pageIndex >>> 3).toNat
  let bit := (pageIndex &&& 7).toNat
  let oldByte := map byteIndex
  let old := (oldByte >>> bit) &&& 1
  (fun i => if i = byteIndex then oldByte ||| 1#8 <<< bit else map i, if old = 0 then 1 else 0)

/-- Mode B release: the cursor stays where it is. -/
def releaseBitmapPageModeB (b : PhysBitmap) (pageIndex : BitVec 32) : PhysBitmap × BitVec 32 :=
  let (map, delta) := bitmapBtsFreeDelta pageIndex b.map
  ({ b with map, pagesFree := if delta ≠ 0 then b.pagesFree + delta else b.pagesFree }, delta)

/-- `phys` is the address of the page. The cursor may go down. -/
def freePage (b : PhysBitmap) (phys : BitVec 32) : PhysBitmap :=
  let pageIndex := phys >>> 12
  let (map, delta) := bitmapBtsFreeDelta pageIndex b.map
  let pagesFree := if delta ≠ 0 then b.pagesFree + 1 else b.pagesFree
  let dwordOff := (pageIndex >>> 3) &&& ~~~3#32
  { b with map, pagesFree, pageStart := if b.pageStart > dwordOff then dwordOff else b.pageStart }

/-! ## One page -/

/-- The `while ebx < end` loop: the offset of the first nonzero dword. `fuel` bounds the rounds. -/
def allocPageLoop (map : Nat → BitVec 8) (pageEnd : BitVec 32) : Nat → BitVec 32 → Option (BitVec 32)
  | 0, _ => none
  | fuel + 1, ebx =>
    if ebx < pageEnd then
      if readU32 map ebx.toNat ≠ 0 then some ebx else allocPageLoop map pageEnd fuel (ebx + 4)
    else none

def allocPage (b : PhysBitmap) : PhysBitmap × BitVec 32 :=
  if b.pagesFree.toInt ≤ 1 then ({ b with pagesFree := 1 }, 0)
  else
    match allocPageLoop b.map b.pageEnd b.pageEnd.toNat b.pageStart with
    | none => (b, 0)
    | some ebx =>
      let word := readU32 b.map ebx.toNat
      let bit := word.ctz
      let pagesFree := b.pagesFree - 1
      if pagesFree = 0 then ({ b with pagesFree := 1 }, 0)
      else
        let newWord := word &&& ~~~(1#32 <<< bit)
        let pageIndex := bit + ebx * 8
        ({ b with map := writeU32 b.map ebx.toNat newWord, pageStart := ebx, pagesFree }, pageIndex <<< 12)

/-! ## A run of whole bytes -/

inductive RunResult
  | outOfMap
  | mismatch (next : BitVec 32)
  | found
  deriving DecidableEq, Repr

def allocPagesRun (map : Nat → BitVec 8) (pageEnd : BitVec 32) : Nat → BitVec 32 → BitVec 32 → RunResult
  | 0, _, _ => .outOfMap
  | fuel + 1, cur, edx =>
    if cur ≥ pageEnd then .outOfMap
    else if map cur.toNat ≠ 0xFF then .mismatch (cur + 1)
    else if edx - 1 = 0 then .found
    else allocPagesRun map pageEnd fuel (cur + 1) (edx - 1)

/-- The outer `while ecx < end` loop: the offset of the first run. -/
def allocPagesFind (map : Nat → BitVec 8) (pageEnd needBytes : BitVec 32) :
    Nat → BitVec 32 → Option (BitVec 32)
  | 0, _ => none
  | fuel + 1, ecx =>
    if ecx < pageEnd then
      match allocPagesRun map pageEnd (pageEnd.toNat + 1) ecx needBytes with
      | .outOfMap => none
      | .mismatch next => allocPagesFind map pageEnd needBytes fuel next
      | .found => some ecx
    else none

def clearBytes (map : Nat → BitVec 8) (off n : Nat) : Nat → BitVec 8 :=
  fun i => if off ≤ i ∧ i < off + n then 0 else map i

/-- The new state, and the address of the first page or 0. The cursor is not written. -/
def allocPages (b : PhysBitmap) (count : BitVec 32) : PhysBitmap × BitVec 32 :=
  let needBytes := (count + 7) >>> 3
  if (b.pagesFree - 9).toInt < 0 then (b, 0)
  else
    let avail := (b.pagesFree - 9) >>> 3
    if needBytes.toInt > avail.toInt then (b, 0)
    else if needBytes = 0 then (b, 0)
    else
      match allocPagesFind b.map b.pageEnd needBytes (b.pageEnd.toNat + 1) b.pageStart with
      | none => (b, 0)
      | some edi =>
        let charge := needBytes <<< 3
        ({ b with map := clearBytes b.map edi.toNat needBytes.toNat, pagesFree := b.pagesFree - charge }, edi <<< 15)

end Kolibri.Bitmap
