import Kolibri.Lib.Patches

/-! # COFF libraries (`fix_coff_symbols.rs`, `coff_reloc.rs`, `rebase_coff.rs`, `core/dll.inc`)

The kernel sees the image at `DLLDESCR.data`, the process sees it at `img_base`.
-/

namespace Kolibri.Coff

open Memory BitVec

/-! ## Code -/

def cstr (m : Mem) : Nat → BitVec 32 → List (BitVec 8)
  | 0, _ => []
  | n + 1, p => if m p = 0 then [] else m p :: cstr m n (p + 1)

def sectionPtr (sec : BitVec 32) (sectionNum : BitVec 16) : BitVec 32 := sec + (sectionNum.setWidth 32 - 1) * 40

def namePtr (m : Mem) (strings sym : BitVec 32) : BitVec 32 :=
  if load32 m sym = 0 then strings + load32 m (sym + 4) else sym

variable (getProcEx : List (BitVec 8) → BitVec 32)

/-- One round of `fix_coff_symbols`. -/
def fixSymbol (sec strings sym : BitVec 32) (s : Mem × BitVec 32) : Mem × BitVec 32 :=
  let sectionNum := load16 s.1 (sym + 12)
  if sectionNum = 0 then
    let resolved := getProcEx (cstr s.1 256 (namePtr s.1 strings sym))
    (store32 s.1 (sym + 8) resolved, if resolved = 0 then 0 else s.2)
  else if sectionNum ≠ 0xFFFF ∧ sectionNum ≠ 0xFFFE then
    let va := load32 s.1 (sectionPtr sec sectionNum + 12)
    (store32 s.1 (sym + 8) (load32 s.1 (sym + 8) + va), s.2)
  else s

def fixCoffSymbols (sec symbols symCount strings : BitVec 32) (m : Mem) : Mem × BitVec 32 :=
  forEach 18 (fixSymbol getProcEx sec strings) symCount.toNat symbols (m, 1)

def relocTypeDir32 : BitVec 16 := 6
def relocTypeRel32 : BitVec 16 := 20

def forRelocs (act : BitVec 32 → BitVec 32 → Mem → Mem) (coff : BitVec 32) (m : Mem) : Mem :=
  forEach 40
    (fun sec m => forEach 10 (act (load32 m (sec + 12))) (load16 m (sec + 32)).toNat (coff + load32 m (sec + 24)) m)
    (load16 m (coff + 2)).toNat (coff + 20) m

def fixReloc (sym delta secVa reloc : BitVec 32) (m : Mem) : Mem :=
  let symIndex := load32 m (reloc + 4)
  let value := load32 m (sym + symIndex * 18 + 8)
  let rtype := load16 m (reloc + 8)
  if rtype = relocTypeDir32 then patchAdd m (load32 m reloc + secVa + delta) value
  else if rtype = relocTypeRel32 then
    let eax := load32 m reloc + secVa
    patchAdd m (eax + delta) (value - eax - 4)
  else m

def fixCoffRelocs (coff sym delta : BitVec 32) (m : Mem) : Mem := forRelocs (fixReloc sym delta) coff m

def rebaseReloc (delta secVa reloc : BitVec 32) (m : Mem) : Mem :=
  if load16 m (reloc + 8) = relocTypeDir32 then patchAdd m (load32 m reloc + secVa + delta) delta else m

def rebaseCoff (coff delta : BitVec 32) (m : Mem) : Mem := forRelocs (rebaseReloc delta) coff m

structure Library where
  coffHdr : BitVec 32
  symbolsPtr : BitVec 32
  data : BitVec 32
  size : BitVec 32
  defaultBase : BitVec 32
  imgBase : BitVec 32

def link (l : Library) (base : BitVec 32) (m : Mem) : Mem :=
  let nSymbols := load32 m (l.coffHdr + 12)
  let m := (fixCoffSymbols getProcEx (l.coffHdr + 20) l.symbolsPtr nSymbols (l.symbolsPtr + nSymbols * 18) m).1
  fixCoffRelocs l.coffHdr l.symbolsPtr (l.data - base) m

/-- The process gets its own copy of a page at the first write. -/
def mapPages (l : Library) (m : Mem) : Mem := fun a =>
  if Within l.imgBase l.size.toNat a then m (l.data + (a - l.imgBase)) else m a

/-- The part of `load_library` behind the copying of the sections. -/
def loadLibrary (l : Library) (m : Mem) : Mem :=
  let m := mapPages l (link getProcEx l l.defaultBase m)
  let ebx := l.imgBase - l.defaultBase
  if ebx = 0 then m else rebaseCoff l.coffHdr ebx m

/-! ## The tables of an object -/

variable {getProcEx : List (BitVec 8) → BitVec 32} {l : Library} {m m' : Mem} {x : BitVec 32}

def nSections (l : Library) (m : Mem) : Nat := (load16 m (l.coffHdr + 2)).toNat

def nSymbols (l : Library) (m : Mem) : Nat := (load32 m (l.coffHdr + 12)).toNat

def sectionAt (l : Library) (i : Nat) : BitVec 32 := l.coffHdr + 20 + 40 * BitVec.ofNat 32 i

def symbolAt (l : Library) (i : BitVec 32) : BitVec 32 := l.symbolsPtr + i * 18

def relocTable (l : Library) (m : Mem) (i : Nat) : BitVec 32 := l.coffHdr + load32 m (sectionAt l i + 24)

def numReloc (l : Library) (m : Mem) (i : Nat) : Nat := (load16 m (sectionAt l i + 32)).toNat

structure Reloc where
  secVa : BitVec 32
  va : BitVec 32
  symIndex : BitVec 32
  type : BitVec 16
  deriving DecidableEq

def relocAt (m : Mem) (secVa reloc : BitVec 32) : Reloc :=
  ⟨secVa, load32 m reloc, load32 m (reloc + 4), load16 m (reloc + 8)⟩

def relocsOfSection (l : Library) (m : Mem) (i : Nat) : List Reloc :=
  (List.range (numReloc l m i)).map fun j =>
    relocAt m (load32 m (sectionAt l i + 12)) (relocTable l m i + 10 * BitVec.ofNat 32 j)

def relocs (l : Library) (m : Mem) : List Reloc := (List.range (nSections l m)).flatMap (relocsOfSection l m)

def Reloc.Patched (r : Reloc) : Prop := r.type = relocTypeDir32 ∨ r.type = relocTypeRel32
  deriving Decidable

def sectionNumber (l : Library) (m : Mem) (i : BitVec 32) : BitVec 16 := load16 m (symbolAt l i + 12)

/-- Neither external nor absolute. -/
def Internal (sectionNum : BitVec 16) : Prop := sectionNum ≠ 0 ∧ sectionNum ≠ 0xFFFF ∧ sectionNum ≠ 0xFFFE
  deriving Decidable

def InSections (l : Library) (m : Mem) (x : BitVec 32) : Prop := Within l.coffHdr (20 + 40 * nSections l m) x

def InSymbols (l : Library) (m : Mem) (x : BitVec 32) : Prop := Within l.symbolsPtr (18 * nSymbols l m) x

def InRelocs (l : Library) (m : Mem) (x : BitVec 32) : Prop :=
  ∃ i < nSections l m, Within (relocTable l m i) (10 * numReloc l m i) x

def InTables (l : Library) (m : Mem) (x : BitVec 32) : Prop := InSections l m x ∨ InSymbols l m x ∨ InRelocs l m x

def site (l : Library) (r : Reloc) : BitVec 32 := r.va + r.secVa - l.defaultBase

def NameClear (l : Library) (m : Mem) (i : BitVec 32) : Prop :=
  let p := namePtr m (l.symbolsPtr + load32 m (l.coffHdr + 12) * 18) (symbolAt l i)
  p = symbolAt l i ∨ ∀ j ≤ (cstr m 256 p).length, ¬ InSections l m (p + BitVec.ofNat 32 j) ∧
    ¬ InSymbols l m (p + BitVec.ofNat 32 j)

/-- The tables do not overlap, and each place that is patched is a word of its own. -/
structure Object (l : Library) (m : Mem) : Prop where
  symbols_fit : 18 * nSymbols l m ≤ 2 ^ 32
  symbols_apart : ∀ x, InSymbols l m x → ¬ InSections l m x ∧ ¬ InRelocs l m x
  relocs_apart : ∀ x, InRelocs l m x → ¬ InSections l m x
  image_apart : ∀ x, Within l.data l.size.toNat x ∨ Within l.imgBase l.size.toNat x → ¬ InTables l m x
  sites_inside : ∀ r ∈ relocs l m, r.Patched → (site l r).toNat + 4 ≤ l.size.toNat
  sites_apart : ((relocs l m).filter Reloc.Patched).Pairwise fun r s => Apart (site l r) (site l s)
  indices : ∀ r ∈ relocs l m, r.Patched → r.symIndex.toNat < nSymbols l m
  numbers : ∀ r ∈ relocs l m, r.Patched → Internal (sectionNumber l m r.symIndex) →
    (sectionNumber l m r.symIndex).toNat ≤ nSections l m
  names : ∀ r ∈ relocs l m, r.Patched → sectionNumber l m r.symIndex = 0 → NameClear l m r.symIndex

/-! ## Where the fields are -/

theorem nSections_lt (l : Library) (m : Mem) : nSections l m < 65536 := (load16 m (l.coffHdr + 2)).isLt

variable {len i : Nat} {off : BitVec 32}

theorem in_sections_of_header (hoff : off.toNat + len ≤ 20) (hx : Within (l.coffHdr + off) len x) :
    InSections l m x := by
  unfold InSections Within at *
  bv_omega

theorem in_sections_of_section (hi : i < nSections l m) (hoff : off.toNat + len ≤ 40)
    (hx : Within (sectionAt l i + off) len x) : InSections l m x := by
  unfold InSections sectionAt Within at *
  bv_omega

theorem in_relocs_of_reloc {j : Nat} (hi : i < nSections l m) (hj : j < numReloc l m i) (hoff : off.toNat + len ≤ 10)
    (hx : Within (relocTable l m i + 10 * BitVec.ofNat 32 j + off) len x) : InRelocs l m x := by
  refine ⟨i, hi, ?_⟩
  unfold Within at *
  bv_omega

theorem symbol_offset {i off : BitVec 32} {len : Nat} (hfit : 18 * nSymbols l m ≤ 2 ^ 32)
    (hi : i.toNat < nSymbols l m) (hoff : off.toNat + len ≤ 18) (hx : Within (symbolAt l i + off) len x) :
    18 * i.toNat ≤ (x - l.symbolsPtr).toNat ∧ (x - l.symbolsPtr).toNat < 18 * i.toNat + 18 := by
  have hmul : (i * 18).toNat = 18 * i.toNat := by bv_omega
  unfold symbolAt Within at hx
  generalize i * 18 = k at *
  bv_omega

theorem in_symbols_of_symbol {i off : BitVec 32} {len : Nat} (hfit : 18 * nSymbols l m ≤ 2 ^ 32)
    (hi : i.toNat < nSymbols l m) (hoff : off.toNat + len ≤ 18) (hx : Within (symbolAt l i + off) len x) :
    InSymbols l m x := by
  have hrange := symbol_offset hfit hi hoff hx
  unfold InSymbols Within
  omega

theorem symbol_records_apart {i j off' : BitVec 32} {len' : Nat} (hfit : 18 * nSymbols l m ≤ 2 ^ 32)
    (hi : i.toNat < nSymbols l m) (hj : j.toNat < nSymbols l m) (hne : i ≠ j) (hoff : off.toNat + len ≤ 18)
    (hoff' : off'.toNat + len' ≤ 18) (hx : Within (symbolAt l i + off) len x) :
    ¬ Within (symbolAt l j + off') len' x := by
  intro hx'
  have hrange := symbol_offset hfit hi hoff hx
  have hrange' := symbol_offset hfit hj hoff' hx'
  have hval : i.toNat ≠ j.toNat := fun h => hne (eq_of_toNat_eq h)
  omega

theorem cstr_congr {n : Nat} {p : BitVec 32}
    (h : ∀ j ≤ (cstr m n p).length, m' (p + BitVec.ofNat 32 j) = m (p + BitVec.ofNat 32 j)) :
    cstr m' n p = cstr m n p := by
  induction n generalizing p with
  | zero => rfl
  | succ n ih =>
    have hhead : m' p = m p := by simpa using h 0 (Nat.zero_le _)
    unfold cstr
    rw [hhead]
    by_cases hend : m p = 0
    · rw [if_pos hend, if_pos hend]
    rw [if_neg hend, if_neg hend, ih]
    intro j hj
    have hnext : p + 1 + BitVec.ofNat 32 j = p + BitVec.ofNat 32 (j + 1) := by
      rw [Nat.add_comm, ofNat_add, add_assoc]
      rfl
    rw [hnext]
    apply h
    unfold cstr
    rw [if_neg hend, List.length_cons]
    omega

theorem cstr_length_le {n k : Nat} {p : BitVec 32} (h : m (p + BitVec.ofNat 32 k) = 0) : (cstr m n p).length ≤ k := by
  induction n generalizing p k with
  | zero => exact Nat.zero_le _
  | succ n ih =>
    unfold cstr
    split
    · exact Nat.zero_le _
    next hend =>
    cases k with
    | zero => exact absurd (by simpa using h) hend
    | succ k =>
      rw [List.length_cons]
      have hnext : p + BitVec.ofNat 32 (k + 1) = p + 1 + BitVec.ofNat 32 k := by
        rw [Nat.add_comm, ofNat_add, add_assoc]
        rfl
      rw [hnext] at h
      exact Nat.succ_le_succ (ih h)

end Kolibri.Coff
