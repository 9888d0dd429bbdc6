import Kolibri.Lib.Buffer
import Kolibri.Lib.Outcome

/-! # The image editor

The functions as the source has them, on an image in memory. Opening and saving the file and reading the
arguments are left out. A slice or an index out of bounds aborts.
-/

namespace Kolibri.KolibriImg

open Outcome Bytes

/-! ## The boot sector -/

inductive FatKind where
  | fat12
  | fat16
deriving DecidableEq, Repr

structure Bpb where
  bytesPerSector : Nat
  sectorsPerCluster : Nat
  reservedSectors : Nat
  fatCount : Nat
  rootEntries : Nat
  totalSectors : Nat
  sectorsPerFat : Nat
deriving DecidableEq, Repr

namespace Bpb

variable (bpb : Bpb)

def rootDirSectors : Nat :=
  (bpb.rootEntries * 32 + (bpb.bytesPerSector - 1)) / bpb.bytesPerSector

-- the subtractions saturate, as those of the source do
def dataSectors : Nat :=
  bpb.totalSectors - bpb.reservedSectors - bpb.fatCount * bpb.sectorsPerFat - bpb.rootDirSectors

def clusters : Nat :=
  if bpb.sectorsPerCluster = 0 then 0 else bpb.dataSectors / bpb.sectorsPerCluster

/-- The field of this name, which `parse` always fills from the other counts. -/
def fatKind : FatKind := if bpb.clusters < 4085 then .fat12 else .fat16

def parse (data : Buffer) : Outcome Bpb := do
  require (512 ≤ data.len) "image shorter than one sector"
  require (data.bytes 510 = 0x55 ∧ data.bytes 511 = 0xAA) "missing 0x55AA boot signature"
  let bytesPerSector := readU16 data.bytes 11
  require (bytesPerSector ≠ 0 ∧ bytesPerSector &&& (bytesPerSector - 1) = 0) "invalid bytes_per_sector"
  let totalSectors16 := readU16 data.bytes 19
  .ok {
    bytesPerSector := bytesPerSector.toNat
    sectorsPerCluster := (data.bytes 13).toNat
    reservedSectors := (readU16 data.bytes 14).toNat
    fatCount := (data.bytes 16).toNat
    rootEntries := (readU16 data.bytes 17).toNat
    totalSectors := if totalSectors16 ≠ 0 then totalSectors16.toNat else (readU32 data.bytes 32).toNat
    sectorsPerFat := (readU16 data.bytes 22).toNat }

def fatOffset : Nat := bpb.reservedSectors * bpb.bytesPerSector

def fatSize : Nat := bpb.sectorsPerFat * bpb.bytesPerSector

def rootOffset : Nat := bpb.fatOffset + bpb.fatCount * bpb.fatSize

def rootSize : Nat := bpb.rootEntries * 32

def dataOffset : Nat := bpb.rootOffset + bpb.rootSize

def clusterSize : Nat := bpb.sectorsPerCluster * bpb.bytesPerSector

end Bpb

/-! ## Directory entries -/

structure DirEntry where
  rawName : List (BitVec 8)
  attr : BitVec 8
  startCluster : Nat
  size : Nat
deriving DecidableEq

namespace DirEntry

/-- Every caller passes 32 bytes. -/
def parse (buf : Nat → BitVec 8) : Option DirEntry :=
  if buf 0 = 0x00 then none
  else if buf 0 = 0xE5 then
    some { rawName := List.replicate 11 0xE5, attr := buf 11, startCluster := 0, size := 0 }
  else
    some {
      rawName := (List.range 11).map buf
      attr := buf 11
      startCluster := (readU16 buf 26).toNat
      size := (readU32 buf 28).toNat }

def isDeleted (e : DirEntry) : Bool := e.rawName.head? = some 0xE5

def isLfn (e : DirEntry) : Bool := e.attr = 0x0F

def isVolumeLabel (e : DirEntry) : Bool := e.attr &&& 0x08 ≠ 0 ∧ e.attr &&& 0x10 = 0

def isDir (e : DirEntry) : Bool := e.attr &&& 0x10 ≠ 0

end DirEntry

/-! ## Names -/

def isWhitespace (c : Char) : Bool :=
  let n := c.toNat
  (9 ≤ n ∧ n ≤ 13) ∨ n = 0x20 ∨ n = 0x85 ∨ n = 0xA0 ∨ n = 0x1680 ∨ (0x2000 ≤ n ∧ n ≤ 0x200A) ∨
    n = 0x2028 ∨ n = 0x2029 ∨ n = 0x202F ∨ n = 0x205F ∨ n = 0x3000

def isSlash (c : Char) : Bool := c = '/' ∨ c = '\\'

def trim (s : List Char) : List Char :=
  ((s.dropWhile isWhitespace).reverse.dropWhile isWhitespace).reverse

def rsplitOnce (c : Char) (s : List Char) : Option (List Char × List Char) :=
  let tail := s.reverse.takeWhile (· ≠ c)
  if tail.length = s.length then none
  else some ((s.reverse.drop (tail.length + 1)).reverse, tail.reverse)

def utf8 (s : List Char) : List (BitVec 8) :=
  s.flatMap fun c => (String.utf8EncodeChar c).map UInt8.toBitVec

def toAsciiUppercase (b : BitVec 8) : BitVec 8 := if 0x61 ≤ b ∧ b ≤ 0x7A then b - 0x20 else b

def padded (width : Nat) (s : List Char) : List (BitVec 8) :=
  let bytes := (utf8 s).map toAsciiUppercase
  bytes ++ List.replicate (width - bytes.length) 0x20

/-- The eleven bytes of a name. They are valid text again, since no character is cut. -/
def toFat83 (name : List Char) : Outcome (List (BitVec 8)) := do
  let name := (trim name).dropWhile isSlash
  let (base, ext) := (rsplitOnce '.' name).getD (name, [])
  let invalid := "invalid 8.3 name: " ++ String.ofList name
  require (¬ (base = [] ∨ 8 < (utf8 base).length ∨ 3 < (utf8 ext).length)) invalid
  require (¬ ('.' ∈ base ∨ (' ' ∈ base ∧ 8 < (utf8 base).length))) invalid
  .ok (padded 8 base ++ padded 3 ext)

def components (path : List Char) : List (List Char) :=
  (path.splitOnP isSlash).filter fun s => s ≠ [] ∧ s ≠ ['.']

/-- The bytes that may follow a first byte of a character, `none` for no first byte. -/
def continuations (lead : BitVec 8) : Option (List (BitVec 8 × BitVec 8)) :=
  if lead < 0x80 then some []
  else if 0xC2 ≤ lead ∧ lead ≤ 0xDF then some [(0x80, 0xBF)]
  else if lead = 0xE0 then some [(0xA0, 0xBF), (0x80, 0xBF)]
  else if lead = 0xED then some [(0x80, 0x9F), (0x80, 0xBF)]
  else if 0xE1 ≤ lead ∧ lead ≤ 0xEF then some [(0x80, 0xBF), (0x80, 0xBF)]
  else if lead = 0xF0 then some [(0x90, 0xBF), (0x80, 0xBF), (0x80, 0xBF)]
  else if lead = 0xF4 then some [(0x80, 0x8F), (0x80, 0xBF), (0x80, 0xBF)]
  else if 0xF1 ≤ lead ∧ lead ≤ 0xF3 then some [(0x80, 0xBF), (0x80, 0xBF), (0x80, 0xBF)]
  else none

def following : List (BitVec 8 × BitVec 8) → List (BitVec 8) → Nat
  | (lo, hi) :: ranges, b :: bytes => if lo ≤ b ∧ b ≤ hi then following ranges bytes + 1 else 0
  | _, _ => 0

def utf8LossyLoop : Nat → List (BitVec 8) → List (BitVec 8)
  | fuel + 1, lead :: rest =>
    match continuations lead with
    | none => [0xEF, 0xBF, 0xBD] ++ utf8LossyLoop fuel rest
    | some ranges =>
      let n := following ranges rest
      (if n = ranges.length then lead :: rest.take n else [0xEF, 0xBF, 0xBD]) ++ utf8LossyLoop fuel (rest.drop n)
  | _, _ => []

/-- The bytes as text, with a replacement character for what is no text. -/
def utf8Lossy (bytes : List (BitVec 8)) : List (BitVec 8) := utf8LossyLoop bytes.length bytes

def DirEntry.fatName (e : DirEntry) : List (BitVec 8) := utf8Lossy e.rawName

/-! ## The FAT -/

structure Image where
  data : Buffer
  bpb : Bpb

namespace FatKind

def entryOffset (cluster : Nat) : FatKind → Nat
  | fat12 => cluster + cluster / 2
  | fat16 => cluster * 2

def entry (cluster : Nat) (word : BitVec 16) : FatKind → BitVec 16
  | fat12 => if cluster % 2 = 0 then word &&& 0x0FFF#16 else word >>> 4
  | fat16 => word

def patch (cluster : Nat) (word value : BitVec 16) : FatKind → BitVec 16
  | fat12 =>
    if cluster % 2 = 0 then (word &&& 0xF000#16) ||| (value &&& 0x0FFF#16)
    else (word &&& 0x000F#16) ||| ((value &&& 0x0FFF#16) <<< 4)
  | fat16 => value

def indexText : FatKind → String
  | fat12 => "FAT12 index out of range"
  | fat16 => "FAT16 index out of range"

def writeText : FatKind → String
  | fat12 => "FAT12 write out of range"
  | fat16 => "FAT16 write out of range"

def eocMin : FatKind → Nat
  | fat12 => 0x0FF8
  | fat16 => 0xFFF8

def eocValue : FatKind → Nat
  | fat12 => 0x0FFF
  | fat16 => 0xFFFF

end FatKind

namespace Image

variable (img : Image)

def fatGet (cluster : Nat) : Outcome Nat := do
  let kind := img.bpb.fatKind
  within (img.bpb.fatOffset ≤ img.data.len)
  let offset := kind.entryOffset cluster
  require (offset + 1 < img.bpb.fatSize) kind.indexText
  within (img.bpb.fatOffset + offset + 1 < img.data.len)
  .ok (kind.entry cluster (readU16 img.data.bytes (img.bpb.fatOffset + offset))).toNat

def fatSet (cluster value : Nat) : Outcome Image := do
  let kind := img.bpb.fatKind
  let offset := img.bpb.fatOffset + kind.entryOffset cluster
  require (offset + 1 < img.data.len) kind.writeText
  let cur := kind.patch cluster (readU16 img.data.bytes offset) (BitVec.ofNat 16 value)
  .ok { img with data.bytes := writeU16 img.data.bytes offset cur }

def isEoc (cluster : Nat) : Bool := img.bpb.fatKind.eocMin ≤ cluster

def eocValue (img : Image) : Nat := img.bpb.fatKind.eocValue

def goesOn (cluster : Nat) : Bool := 2 ≤ cluster ∧ ¬ img.isEoc cluster

/-- A loop along a chain gives up after this many rounds. -/
def chainLimit : Nat := 1000000

def clusterOffset (cluster : Nat) : Outcome Nat := do
  require (2 ≤ cluster) "invalid cluster < 2"
  .ok (img.bpb.dataOffset + (cluster - 2) * img.bpb.clusterSize)

/-- A cluster size of 0 is a division by zero. -/
def maxCluster : Outcome Nat := do
  within (img.bpb.clusterSize ≠ 0)
  let clusters := (img.data.len - img.bpb.dataOffset) / img.bpb.clusterSize
  .ok (max (min (clusters % 2 ^ 32 + 1) (2 ^ 32 - 1)) 2)

def freeLoop : Nat → Image → Nat → Outcome Image
  | 0, _, _ => fail "FAT free: chain too long / loop"
  | fuel + 1, img, cluster =>
    if img.goesOn cluster then do
      let next ← img.fatGet cluster
      let img ← img.fatSet cluster 0
      freeLoop fuel img next
    else .ok img

def freeChain (start : Nat) : Outcome Image :=
  if start < 2 then .ok img else freeLoop (chainLimit + 1) img start

def allocLoop (img : Image) : Nat → Nat → Outcome (Nat × Image)
  | 0, _ => fail "no free clusters on image"
  | left + 1, c => do
    let value ← img.fatGet c
    if value = 0 then do
      let img ← img.fatSet c img.eocValue
      .ok (c, img)
    else allocLoop img left (c + 1)

def allocCluster : Outcome (Nat × Image) := do
  let max ← img.maxCluster
  allocLoop img (max - 1) 2

def fillCluster (off : Nat) (chunk : List (BitVec 8)) : Image :=
  let cleared := Buffer.overlay img.data.bytes off (List.replicate img.bpb.clusterSize 0)
  { img with data.bytes := Buffer.overlay cleared off chunk }

-- every round but the last takes a whole cluster, so the length bounds the rounds
def writeLoop : Nat → Image → Nat → List (BitVec 8) → Outcome Image
  | 0, _, _, _ => .error .abort
  | fuel + 1, img, prev, remaining => do
    let off ← img.clusterOffset prev
    require (off + img.bpb.clusterSize ≤ img.data.len) "allocated cluster past end of image"
    let take := min remaining.length img.bpb.clusterSize
    let img := img.fillCluster off (remaining.take take)
    let remaining := remaining.drop take
    if remaining = [] then img.fatSet prev img.eocValue
    else do
      let (next, img) ← img.allocCluster
      let img ← img.fatSet prev next
      writeLoop fuel img next remaining

def allocateAndWrite (bytes : List (BitVec 8)) : Outcome (Nat × Image) := do
  let (first, img) ← img.allocCluster
  let img ← writeLoop (bytes.length + 1) img first bytes
  .ok (first % 2 ^ 16, img)

/-! ## Reading -/

def slice (off n : Nat) : List (BitVec 8) :=
  (List.range n).map fun i => img.data.bytes (off + i)

def readLoop (img : Image) (maxBytes : Option Nat) : Nat → Nat → List (BitVec 8) → Outcome (List (BitVec 8))
  | 0, _, _ => fail "FAT chain too long / loop detected"
  | fuel + 1, cluster, out =>
    if img.goesOn cluster then do
      let off ← img.clusterOffset cluster
      require (off + img.bpb.clusterSize ≤ img.data.len) "cluster points past end of image"
      let out := out ++ img.slice off img.bpb.clusterSize
      if maxBytes.any (· ≤ out.length) then .ok out
      else do
        let next ← img.fatGet cluster
        readLoop img maxBytes fuel next out
    else .ok out

def readClusters (start : Nat) (maxBytes : Option Nat) : Outcome (List (BitVec 8)) :=
  if start < 2 then .ok [] else readLoop img maxBytes (chainLimit + 1) start []

def readFile (e : DirEntry) : Outcome (List (BitVec 8)) := do
  let data ← img.readClusters e.startCluster (some e.size)
  .ok (data.take e.size)

/-! ## Directories -/

def wanted (want : List (BitVec 8)) (e : DirEntry) : Bool :=
  !e.isDeleted && !e.isLfn && !e.isVolumeLabel && e.rawName = want

inductive Scan where
  | found (abs : Nat) (e : DirEntry)
  | ended
  | past

def scanEntries (img : Image) (want : List (BitVec 8)) : Nat → Nat → Outcome Scan
  | 0, _ => .ok .past
  | left + 1, abs => do
    within (abs + 32 ≤ img.data.len)
    match DirEntry.parse fun i => img.data.bytes (abs + i) with
    | none => .ok .ended
    | some e => if wanted want e then .ok (.found abs e) else scanEntries img want left (abs + 32)

def findRootFileOffset (want : List (BitVec 8)) : Outcome (Option (Nat × DirEntry)) := do
  match ← img.scanEntries want (img.bpb.rootSize / 32) img.bpb.rootOffset with
  | .found abs e => .ok (some (abs, e))
  | .ended | .past => .ok none

def findLoop (img : Image) (want : List (BitVec 8)) : Nat → Nat → Outcome (Option (Nat × DirEntry))
  | 0, _ => fail "FAT chain too long / loop detected"
  | fuel + 1, cluster =>
    if img.goesOn cluster then do
      let base ← img.clusterOffset cluster
      match ← img.scanEntries want (img.bpb.clusterSize / 32) base with
      | .found abs e => .ok (some (abs, e))
      | .ended => .ok none
      | .past => do
        let next ← img.fatGet cluster
        findLoop img want fuel next
    else .ok none

def findInClusterDir (start : Nat) (want : List (BitVec 8)) : Outcome (Option (Nat × DirEntry)) :=
  findLoop img want (chainLimit + 1) start

def parseChunks (region : List (BitVec 8)) : Nat → Nat → List DirEntry
  | 0, _ => []
  | left + 1, k =>
    match DirEntry.parse fun i => region.getD (k + i) 0 with
    | none => []
    | some e => if e.isDeleted then parseChunks region left (k + 32) else e :: parseChunks region left (k + 32)

def parseDirRegionBytes (region : List (BitVec 8)) : List DirEntry := parseChunks region (region.length / 32) 0

def listRoot : Outcome (List DirEntry) := do
  require (img.bpb.rootOffset + img.bpb.rootSize ≤ img.data.len) "directory region out of bounds"
  .ok (parseDirRegionBytes (img.slice img.bpb.rootOffset img.bpb.rootSize))

/-- The directory of a path. The start cluster of the last directory that was entered is kept. -/
def walk (img : Image) : List (List Char) → List DirEntry → Option Nat → Outcome (Option (Option Nat))
  | [], _, parentStart => .ok (some parentStart)
  | component :: rest, entries, _ => do
    let fat ← toFat83 component
    match entries.find? fun e => !e.isDeleted && !e.isLfn && e.isDir && e.fatName = fat with
    | none => .ok none
    | some dir => do
      let bytes ← img.readClusters dir.startCluster none
      walk img rest (parseDirRegionBytes bytes) (some dir.startCluster)

def findFilePath (path : List Char) : Outcome (Option (Nat × DirEntry)) :=
  match components path with
  | [] => fail "empty path"
  | [component] => do
    let fat ← toFat83 component
    img.findRootFileOffset fat
  | component :: component' :: rest => do
    let entries ← img.listRoot
    match ← img.walk ((component :: component' :: rest).dropLast) entries none with
    | none => .ok none
    | some parentStart => do
      let fileFat ← toFat83 ((component' :: rest).getLastD component')
      match parentStart with
      | none => fail "internal: missing parent cluster"
      | some start => img.findInClusterDir start fileFat

/-! ## Changing entries -/

def poke (off : Nat) (bytes : List (BitVec 8)) : Image :=
  { img with data.bytes := Buffer.overlay img.data.bytes off bytes }

def markDirentDeleted (offset : Nat) : Outcome Image := do
  require (offset < img.data.len) "dirent offset out of range"
  .ok (img.poke offset [0xE5])

def updateDirent (offset start size : Nat) : Outcome Image := do
  require (offset + 32 ≤ img.data.len) "dirent offset out of range"
  let img := img.poke (offset + 26) (Buffer.leBytes 2 (BitVec.ofNat 16 start))
  let img := img.poke (offset + 20) [0, 0]
  .ok (img.poke (offset + 28) (Buffer.leBytes 4 (BitVec.ofNat 32 size)))

def freeDirentLoop (img : Image) : Nat → Nat → Outcome Nat
  | 0, _ => fail "root directory is full"
  | left + 1, o => do
    within (o < img.data.len)
    let first := img.data.bytes o
    if first = 0x00 ∨ first = 0xE5 then .ok o else freeDirentLoop img left (o + 32)

def findFreeRootDirent : Outcome Nat :=
  freeDirentLoop img (img.bpb.rootSize / 32) img.bpb.rootOffset

def writeNewRootDirent (offset : Nat) (name : List (BitVec 8)) (start size : Nat) : Outcome Image := do
  require (offset + 32 ≤ img.data.len) "dirent offset out of range"
  require (name.length = 11) "internal: FAT 8.3 name must be 11 bytes"
  let img := img.poke offset name
  let img := img.poke (offset + 11) [0x20]
  let img := img.poke (offset + 12) (List.replicate 14 0)
  img.updateDirent offset start size

def mirrorLoop : Nat → Image → Nat → Outcome Image
  | 0, img, _ => .ok img
  | left + 1, img, copy => do
    let first := img.bpb.fatOffset
    let dst := first + copy * img.bpb.fatSize
    require (dst + img.bpb.fatSize ≤ img.data.len) "FAT mirror out of range"
    mirrorLoop left (img.poke dst (img.slice first img.bpb.fatSize)) (copy + 1)

def mirrorFats : Outcome Image := mirrorLoop (img.bpb.fatCount - 1) img 1

/-! ## The commands -/

def writeBytes (newBytes : List (BitVec 8)) : Outcome (Nat × Image) :=
  if newBytes = [] then .ok (0, img) else img.allocateAndWrite newBytes

/-- What `cmd_replace` and `cmd_put` do with an entry that is there. -/
def replaceAt (offset : Nat) (e : DirEntry) (newBytes : List (BitVec 8)) : Outcome Image := do
  let img ← img.freeChain e.startCluster
  let (newStart, img) ← img.writeBytes newBytes
  let img ← img.updateDirent offset newStart (newBytes.length % 2 ^ 32)
  img.mirrorFats

def createAt (offset : Nat) (fatName newBytes : List (BitVec 8)) : Outcome Image := do
  let (newStart, img) ← img.writeBytes newBytes
  let img ← img.writeNewRootDirent offset fatName newStart (newBytes.length % 2 ^ 32)
  img.mirrorFats

def cmdDelete (ignoreMissing : Bool) (name : List Char) : Outcome Image := do
  match ← img.findFilePath name with
  | none => if ignoreMissing then .ok img else fail ("file not found: " ++ String.ofList name)
  | some (offset, e) => do
    require (¬ e.isDir) "refusing to delete a directory (not implemented)"
    let img ← img.freeChain e.startCluster
    let img ← img.markDirentDeleted offset
    img.mirrorFats

def cmdReplace (name : List Char) (newBytes : List (BitVec 8)) : Outcome Image := do
  let fatName ← toFat83 name
  match ← img.findRootFileOffset fatName with
  | none => fail ("file not found in root: " ++ String.ofList name)
  | some (offset, e) => do
    require (¬ e.isDir) "refusing to replace a directory"
    img.replaceAt offset e newBytes

def cmdPut (name : List Char) (newBytes : List (BitVec 8)) : Outcome Image := do
  let fatName ← toFat83 name
  match ← img.findRootFileOffset fatName with
  | some (offset, e) => do
    require (¬ e.isDir) "refusing to put over a directory"
    img.replaceAt offset e newBytes
  | none => do
    let offset ← img.findFreeRootDirent
    img.createAt offset fatName newBytes

end Image

end Kolibri.KolibriImg
