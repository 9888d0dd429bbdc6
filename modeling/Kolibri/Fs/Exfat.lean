import Kolibri.Fs.Unicode

/-! # Names in an exFAT directory (`exfat_find_lfn.rs`, `exfat_checksum.rs`, `fs/exfat.inc`)

A directory is a chain of sectors with sixteen entries each. A file has an entry `0x85`, a stream entry `0xC0` and
entries `0xC1` with fifteen units of its name each, which are put together at `LFN_reserve_place`. Where the sets
of longname sectors are kept, and the volume label, is left out.
-/

namespace Kolibri.Exfat

open Registers Unicode

def errorFileNotFound : BitVec 32 := 5
def errorDevice : BitVec 32 := 11

def slash : BitVec 16 := 0x2F

def lfnUtf16Units : Nat := 262

/-! ## Letters and hashes -/

def utf16ToUpper (eax : BitVec 32) : BitVec 32 :=
  let ax := low16 eax
  if ax < 0x61 then eax
  else if ax ≤ 0x7A then eax - 32
  else if ax < 0x430 then eax
  else if ax < 0x450 then eax - 32
  else if 0x460 ≤ ax then eax
  else eax - 80

/-- The next unit of a path, with its letter case taken away. -/
def stepUtf16 (esi : List (BitVec 8)) (eax : BitVec 32) : Option (BitVec 32 × List (BitVec 8)) :=
  (utf8to16 esi eax).map fun (out, esi) => (utf16ToUpper out, esi)

def exfatRollingChecksum (data : List (BitVec 8)) : BitVec 16 :=
  data.foldl (fun sum byte =>
    let rotated := if sum &&& 1 ≠ 0 then 0x8000 else 0
    rotated + (sum >>> 1) + byte.setWidth 16) 0

def unitBytes (us : List (BitVec 16)) : List (BitVec 8) := us.flatMap fun u : BitVec 16 => [u.setWidth 8, (u >>> 8).setWidth 8]

def exfatHashCalculate (us : List (BitVec 16)) : BitVec 16 := exfatRollingChecksum (unitBytes us)

/-! ## `exFAT_get_name` -/

abbrev Entry := Fin 32 → BitVec 8

scoped instance neZero32 : NeZero 32 := ⟨by decide⟩

scoped instance neZero16 : NeZero 16 := ⟨by decide⟩

def Entry.units (e : Entry) : List (BitVec 16) :=
  List.ofFn fun i : Fin 15 => e ⟨2 * i + 3, by omega⟩ ++ e ⟨2 * i + 2, by omega⟩

/-- Where the next part of a name goes. `exFAT_find_lfn` has the path in `esi` at first. -/
inductive Place
  | path (offset : Nat)
  | lfn (unit : Nat)
  deriving DecidableEq

/-- What `exFAT_get_name` works on. `fnameExtdir` counts the entries at `fname_ext_dir_entry`. -/
structure Names where
  needHash : Bool
  currentHash : BitVec 32
  secondaryDirEntry : BitVec 32
  hashFlag : Bool
  fnameExtdir : Nat
  fileDirEntry : Entry
  strExtDirEntry : Entry
  esi : Place
  lfn : List (BitVec 16)
  path : List (BitVec 8)

def overwrite {β : Type*} (l : List β) (i : Nat) (xs : List β) : List β := l.take i ++ xs ++ l.drop (i + xs.length)

def Names.copy (g : Names) (e : Entry) : Names :=
  match g.esi with
  | .lfn k => { g with lfn := overwrite g.lfn k (e.units ++ [0]) }
  | .path k => { g with path := overwrite g.path k (unitBytes (e.units ++ [0])) }

def Place.next : Place → Place
  | .path k => .path (k + 30)
  | .lfn k => .lfn (k + 15)

def Names.reserve (g : Names) : Names := { g with esi := .lfn 0, lfn := g.lfn.set 260 0 }

/-- The carry says that there is no name yet. -/
def getName (g : Names) (e : Entry) : Names × Bool :=
  if e 0 = 0 then (g, true)
  else if e 0 = 0x85 then
    ({ g with
        fnameExtdir := 0
        hashFlag := false
        secondaryDirEntry := (e 1).setWidth 32 - 1
        fileDirEntry := e }.reserve, true)
  else if e 0 = 0xC0 then
    let differs := g.needHash && (e 5 ++ e 4 : BitVec 16).setWidth 32 ≠ g.currentHash
    ({ g with hashFlag := g.hashFlag || differs, strExtDirEntry := e }.reserve, true)
  else if e 0 = 0xC1 then
    if g.hashFlag then (g, true)
    else if g.fnameExtdir = 17 then (g, true)
    else
      let g := { g with fnameExtdir := g.fnameExtdir + 1 }.copy e
      let eax := g.secondaryDirEntry - 1
      if eax = 0 then ({ g with secondaryDirEntry := eax }, false)
      else ({ g with secondaryDirEntry := eax, esi := g.esi.next }, true)
  else (g, true)

/-! ## The walk through the sectors -/

/-- `getFat` and `read` fail together with the device. -/
structure Volume where
  sectorsPerCluster : BitVec 32
  clusterHeapStart : BitVec 32
  fatReserved : BitVec 32
  generalSecFlags : BitVec 32
  getFat : BitVec 32 → Option (BitVec 32)
  read : BitVec 32 → Option (Fin 16 → Entry)

structure Pair where
  cluster : BitVec 32
  sectorOfs : BitVec 32
  deriving DecidableEq

structure Walk where
  pair : Pair
  validDataLength : BitVec 32
  buffer : Fin 16 → Entry
  edi : Fin 16
  names : Names

variable (v : Volume)

def exfatGetSector (p : Pair) : BitVec 32 :=
  (p.cluster - 2) * v.sectorsPerCluster + v.clusterHeapStart + p.sectorOfs

def exFatNotrootFirst (w : Walk) : Except (BitVec 32) Walk :=
  match v.read (exfatGetSector v w.pair) with
  | none => .error errorDevice
  | some buffer => .ok { w with buffer, edi := 0, validDataLength := w.validDataLength - 512 }

def nextSector (p : Pair) : Except (BitVec 32) Pair :=
  let ecx := p.sectorOfs + 1
  if ecx < v.sectorsPerCluster then .ok { p with sectorOfs := ecx }
  else
    match if v.generalSecFlags &&& 2 = 0 then v.getFat p.cluster else some (p.cluster + 1) with
    | none => .error errorDevice
    | some cluster =>
      if cluster < 2 ∨ v.fatReserved ≤ cluster then .error errorFileNotFound else .ok ⟨cluster, 0⟩

def exFatNotrootNext (w : Walk) : Except (BitVec 32) Walk :=
  if h : w.edi.val < 15 then .ok { w with edi := ⟨w.edi + 1, by omega⟩ }
  else
    match nextSector v w.pair with
    | .error eax => .error eax
    | .ok pair => exFatNotrootFirst v { w with pair }

/-! ## `exFAT_find_lfn` -/

/-- The units of the path and its terminator. `none` means that the path ends without one. -/
def fillLfn : Nat → List (BitVec 8) → BitVec 32 → Option (List (BitVec 16))
  | 0, _, _ => some []
  | room + 1, esi, eax => do
    let (eax, esi) ← stepUtf16 esi eax
    if low16 eax = 0 ∨ low16 eax = slash then some [low16 eax]
    else
      let more ← fillLfn room esi eax
      some (low16 eax :: more)

def comparePath : List (BitVec 16) → List (BitVec 8) → BitVec 32 → Option (Option (List (BitVec 8)))
  | [], _, _ => none
  | unit :: lfn, pe, eax => do
    let (dx, esi) ← stepUtf16 pe eax
    let eax := utf16ToUpper (setLow16 dx unit)
    if low16 eax ≠ low16 dx then
      if low16 dx = slash ∧ low16 eax = 0 then some (some esi) else some none
    else if low16 eax = 0 then
      -- Back to the zero.
      some (some (pe.drop (pe.length - esi.length - 1)))
    else comparePath lfn esi eax

/-- `eax` if it is not zero, or where `edi` and `esi` are. -/
abbrev Answer := Except (BitVec 32) (Walk × List (BitVec 8))

def finishFound (w : Walk) (esi : List (BitVec 8)) : Answer :=
  if w.names.secondaryDirEntry ≠ 0 then
    match exFatNotrootNext v w with
    | .error eax => .error eax
    | .ok w => .ok (w, esi)
  else .ok (w, esi)

/-- The rest of the path comes out if the entry ends a name that is alike. -/
def matchEntry (g : Names) (e : Entry) : Names × Option (Option (List (BitVec 8))) :=
  let (g, cf) := getName g e
  (g, if cf || g.secondaryDirEntry ≠ 0 then some none else comparePath g.lfn g.path 0)

def findLoop (v : Volume) : Nat → Walk → Option Answer
  | 0, _ => none
  | fuel + 1, w =>
    let (names, result) := matchEntry w.names (w.buffer w.edi)
    let w := { w with names }
    match result with
    | none => none
    | some (some esi) => some (finishFound v w esi)
    | some none =>
      if w.validDataLength = 0 then some (.error errorFileNotFound)
      else
        match exFatNotrootNext v w with
        | .error eax => some (.error eax)
        | .ok w => findLoop v fuel w

/-- The sectors until `valid_data_length` comes back to zero, sixteen entries each. -/
def findFuel : Nat := 2 ^ 27 + 1

/-- `lfn` is the address of the place for the name. -/
def exfatFindLfn (w : Walk) (lfn : BitVec 32) : Option Answer :=
  let names := { w.names with secondaryDirEntry := 1, needHash := true }
  match exFatNotrootFirst v { w with names } with
  | .error eax => some (.error eax)
  | .ok w => do
    let us ← fillLfn lfnUtf16Units w.names.path lfn
    let currentHash := (exfatHashCalculate us.dropLast).setWidth 32
    let names := { w.names with currentHash, lfn := overwrite w.names.lfn 0 us, esi := .path 0 }
    findLoop v findFuel { w with names }

end Kolibri.Exfat
