import Kolibri.Coff.Code

/-! # Rebasing against linking for `imgBase` at once -/

namespace Kolibri.Coff

open Memory List BitVec

variable {getProcEx : List (BitVec 8) → BitVec 32} {l : Library} {m m' : Mem} {d x : BitVec 32}

/-! ## Memories with the same tables -/

def InVa (l : Library) (m : Mem) (x : BitVec 32) : Prop := ∃ i < nSections l m, Within (sectionAt l i + 12) 4 x

variable {len j size : Nat} {off sym i base s k : BitVec 32} {sectionNum : BitVec 16} {r : Reloc}

theorem section_offset {i : Nat} (hi : i < nSections l m) (hoff : off.toNat + len ≤ 40)
    (hx : Within (sectionAt l i + off) len x) :
    20 + 40 * i + off.toNat ≤ (x - l.coffHdr).toNat ∧ (x - l.coffHdr).toNat < 20 + 40 * i + off.toNat + len := by
  have hn := nSections_lt l m
  unfold sectionAt Within at *
  bv_omega

theorem not_in_va_of_header (hoff : off.toNat + len ≤ 20) (hx : Within (l.coffHdr + off) len x) : ¬ InVa l m x := by
  rintro ⟨i, hi, hva⟩
  have hrange := section_offset hi (by decide) hva
  have hheader : (x - l.coffHdr).toNat < 20 := by
    unfold Within at hx
    bv_omega
  omega

theorem not_in_va_of_section {i : Nat} (hi : i < nSections l m) (hoff : off.toNat + len ≤ 40)
    (hva : off.toNat + len ≤ 12 ∨ 16 ≤ off.toNat) (hx : Within (sectionAt l i + off) len x) : ¬ InVa l m x := by
  rintro ⟨j, hj, hxva⟩
  have hrange := section_offset hi hoff hx
  have hrange' := section_offset hj (by decide) hxva
  rw [show (12 : BitVec 32).toNat = 12 from rfl] at hrange'
  omega

theorem in_sections_of_va (h : InVa l m x) : InSections l m x := by
  obtain ⟨i, hi, hx⟩ := h
  exact in_sections_of_section hi (by decide) hx

structure Moved (l : Library) (d : BitVec 32) (m m' : Mem) : Prop where
  same : ∀ x, InSections l m x ∨ InRelocs l m x → ¬ InVa l m x → m' x = m x
  va : ∀ i < nSections l m, load32 m' (sectionAt l i + 12) = load32 m (sectionAt l i + 12) + d

namespace Moved

variable (h : Moved l d m m')
include h

theorem nSections_eq : nSections l m' = nSections l m := by
  unfold nSections
  rw [load16_congr fun x hx =>
    h.same x (.inl (in_sections_of_header (by decide) hx)) (not_in_va_of_header (by decide) hx)]

theorem load_nSymbols : load32 m' (l.coffHdr + 12) = load32 m (l.coffHdr + 12) :=
  load32_congr fun x hx =>
    h.same x (.inl (in_sections_of_header (by decide) hx)) (not_in_va_of_header (by decide) hx)

theorem nSymbols_eq : nSymbols l m' = nSymbols l m := by
  unfold nSymbols
  rw [h.load_nSymbols]

theorem relocTable_eq {i : Nat} (hi : i < nSections l m) : relocTable l m' i = relocTable l m i := by
  unfold relocTable
  rw [load32_congr fun x hx => h.same x (.inl (in_sections_of_section hi (by decide) hx))
    (not_in_va_of_section hi (by decide) (by decide) hx)]

theorem numReloc_eq {i : Nat} (hi : i < nSections l m) : numReloc l m' i = numReloc l m i := by
  unfold numReloc
  rw [load16_congr fun x hx => h.same x (.inl (in_sections_of_section hi (by decide) hx))
    (not_in_va_of_section hi (by decide) (by decide) hx)]

theorem inTables_iff : InTables l m' x ↔ InTables l m x := by
  have hrelocs : InRelocs l m' x ↔ InRelocs l m x := by
    unfold InRelocs
    rw [h.nSections_eq]
    constructor
    · rintro ⟨i, hi, hx⟩
      rw [h.relocTable_eq hi, h.numReloc_eq hi] at hx
      exact ⟨i, hi, hx⟩
    · rintro ⟨i, hi, hx⟩
      rw [← h.relocTable_eq hi, ← h.numReloc_eq hi] at hx
      exact ⟨i, hi, hx⟩
  unfold InTables InSections InSymbols
  rw [hrelocs, h.nSections_eq, h.nSymbols_eq]

end Moved

theorem relocAt_congr {i : Nat} (hi : i < nSections l m) (hj : j < numReloc l m i)
    (h : ∀ x, InRelocs l m x → m' x = m x) (secVa : BitVec 32) :
    relocAt m' secVa (relocTable l m i + 10 * BitVec.ofNat 32 j) =
      relocAt m secVa (relocTable l m i + 10 * BitVec.ofNat 32 j) := by
  have hfield : ∀ {off : BitVec 32} {len : Nat} {x : BitVec 32}, off.toNat + len ≤ 10 →
      Within (relocTable l m i + 10 * BitVec.ofNat 32 j + off) len x → m' x = m x :=
    fun hoff hx => h _ (in_relocs_of_reloc hi hj hoff hx)
  have hva : load32 m' (relocTable l m i + 10 * BitVec.ofNat 32 j) =
      load32 m (relocTable l m i + 10 * BitVec.ofNat 32 j) :=
    load32_congr fun x hx => @hfield 0 4 x (by decide) (by simpa using hx)
  unfold relocAt
  rw [hva, load32_congr fun x hx => hfield (by decide) hx, load16_congr fun x hx => hfield (by decide) hx]

def Reloc.move (d : BitVec 32) (r : Reloc) : Reloc := { r with secVa := r.secVa + d }

theorem Moved.relocs_eq (h : Moved l d m m') (hapart : ∀ x, InRelocs l m x → ¬ InSections l m x) :
    relocs l m' = (relocs l m).map (Reloc.move d) := by
  have hsame : ∀ x, InRelocs l m x → m' x = m x := fun x hx =>
    h.same x (.inr hx) fun hva => hapart x hx (in_sections_of_va hva)
  unfold relocs
  rw [h.nSections_eq, map_flatMap]
  apply flatMap_congr
  intro i hi
  rw [mem_range] at hi
  unfold relocsOfSection
  rw [h.numReloc_eq hi, h.relocTable_eq hi, h.va i hi, map_map]
  apply map_congr_left
  intro j hj
  rw [mem_range] at hj
  rw [relocAt_congr hi hj hsame]
  rfl

/-! ## The walk over the relocations -/

theorem forRelocs_eq {act : BitVec 32 → BitVec 32 → Mem → Mem} (patch : Reloc → List Patch)
    (hact : ∀ m', (∀ x, InTables l m x → m' x = m x) → ∀ secVa reloc, relocAt m' secVa reloc ∈ relocs l m →
      act secVa reloc m' = applyPatches m' (patch (relocAt m' secVa reloc)))
    (havoid : ∀ r ∈ relocs l m, ∀ p ∈ patch r, ∀ x, Within p.1 4 x → ¬ InTables l m x) :
    forRelocs act l.coffHdr m = applyPatches m ((relocs l m).flatMap patch) := by
  have hkept : ∀ m', (∀ x, InTables l m x → m' x = m x) → ∀ r ∈ relocs l m,
      ∀ x, InTables l m x → applyPatches m' (patch r) x = m x := by
    intro m' hm' r hr x hx
    rw [applyPatches_outside m' fun p hp hword => havoid r hr p hp x hword hx, hm' x hx]
  unfold relocs
  rw [flatMap_assoc]
  refine (forEach_patches (fun m' => ∀ x, InTables l m x → m' x = m x)
    (fun i => (relocsOfSection l m i).flatMap patch) (fun _ _ => rfl) ?_).1
  intro i hi m' hm'
  -- The headers are read again in every round.
  have hsec : ∀ {off : BitVec 32} {len : Nat} {x : BitVec 32}, off.toNat + len ≤ 40 →
      Within (sectionAt l i + off) len x → m' x = m x :=
    fun hoff hx => hm' _ (.inl (in_sections_of_section hi hoff hx))
  change forEach 10 (act (load32 m' (sectionAt l i + 12))) (load16 m' (sectionAt l i + 32)).toNat
    (l.coffHdr + load32 m' (sectionAt l i + 24)) m' = _ ∧ _
  rw [load32_congr fun x hx => hsec (by decide) hx, load16_congr fun x hx => hsec (by decide) hx,
    load32_congr fun x hx => hsec (by decide) hx]
  have hinner := @forEach_patches 10 (relocTable l m i) (act (load32 m (sectionAt l i + 12))) (numReloc l m i) m'
    (fun m' => ∀ x, InTables l m x → m' x = m x)
    (fun j => patch (relocAt m (load32 m (sectionAt l i + 12)) (relocTable l m i + 10 * BitVec.ofNat 32 j))) hm' ?_
  · have hlist : (List.range (numReloc l m i)).flatMap (fun j =>
        patch (relocAt m (load32 m (sectionAt l i + 12)) (relocTable l m i + 10 * BitVec.ofNat 32 j))) =
        (relocsOfSection l m i).flatMap patch := by
      unfold relocsOfSection
      rw [flatMap_map]
    rw [hlist] at hinner
    exact ⟨hinner.1, hinner.1 ▸ hinner.2⟩
  · intro j hj m'' hm''
    have hmem : relocAt m (load32 m (sectionAt l i + 12)) (relocTable l m i + 10 * BitVec.ofNat 32 j) ∈ relocs l m :=
      mem_flatMap.mpr ⟨i, mem_range.mpr hi, mem_map_of_mem (mem_range.mpr hj)⟩
    have hentry := relocAt_congr hi hj (fun x hx => hm'' x (.inr (.inr hx))) (load32 m (sectionAt l i + 12))
    refine ⟨?_, hkept m'' hm'' _ hmem⟩
    rw [hact m'' hm'' _ _ (hentry ▸ hmem), hentry]

/-! ## Symbols -/

def symbolValue (getProcEx : List (BitVec 8) → BitVec 32) (sec strings : BitVec 32) (m : Mem) (sym : BitVec 32) :
    BitVec 32 :=
  let sectionNum := load16 m (sym + 12)
  if sectionNum = 0 then getProcEx (cstr m 256 (namePtr m strings sym))
  else if sectionNum ≠ 0xFFFF ∧ sectionNum ≠ 0xFFFE then
    load32 m (sym + 8) + load32 m (sectionPtr sec sectionNum + 12)
  else load32 m (sym + 8)

theorem fixSymbol_value (getProcEx : List (BitVec 8) → BitVec 32) (sec strings sym : BitVec 32) (s : Mem × BitVec 32) :
    load32 (fixSymbol getProcEx sec strings sym s).1 (sym + 8) = symbolValue getProcEx sec strings s.1 sym := by
  unfold fixSymbol symbolValue
  dsimp only
  split_ifs
  · exact load32_store32 ..
  · exact load32_store32 ..
  · exact load32_store32 ..
  · rfl

theorem fixSymbol_outside (getProcEx : List (BitVec 8) → BitVec 32) (sec strings sym : BitVec 32)
    (s : Mem × BitVec 32) (hx : ¬ Within (sym + 8) 4 x) : (fixSymbol getProcEx sec strings sym s).1 x = s.1 x := by
  unfold fixSymbol
  dsimp only
  split_ifs
  · exact store32_outside _ _ hx
  · exact store32_outside _ _ hx
  · exact store32_outside _ _ hx
  · rfl

theorem within_record {sym off : BitVec 32} {len : Nat} (hoff : off.toNat + len ≤ 18) (hx : Within (sym + off) len x) :
    Within sym 18 x := by
  unfold Within at *
  bv_omega

theorem load_number_congr (h : ∀ x, Within sym 18 x → m' x = m x) : load16 m' (sym + 12) = load16 m (sym + 12) :=
  load16_congr fun x hx => h x (within_record (by decide) hx)

theorem namePtr_congr {strings : BitVec 32} (h : ∀ x, Within sym 18 x → m' x = m x) :
    namePtr m' strings sym = namePtr m strings sym := by
  have hfirst : load32 m' sym = load32 m sym :=
    load32_congr fun x hx => h x (@within_record x sym 0 4 (by decide) (by simpa using hx))
  unfold namePtr
  rw [hfirst, load32_congr fun x hx => h x (within_record (by decide) hx)]

theorem symbolValue_moved {sec strings sym : BitVec 32} (hrecord : ∀ x, Within sym 18 x → m' x = m x)
    (hva : Internal (load16 m (sym + 12)) →
      load32 m' (sectionPtr sec (load16 m (sym + 12)) + 12) = load32 m (sectionPtr sec (load16 m (sym + 12)) + 12) + d)
    (hname : load16 m (sym + 12) = 0 → cstr m' 256 (namePtr m strings sym) = cstr m 256 (namePtr m strings sym)) :
    symbolValue getProcEx sec strings m' sym =
      symbolValue getProcEx sec strings m sym + if Internal (load16 m (sym + 12)) then d else 0 := by
  have hvalue : load32 m' (sym + 8) = load32 m (sym + 8) :=
    load32_congr fun x hx => hrecord x (within_record (by decide) hx)
  unfold symbolValue
  rw [load_number_congr hrecord, namePtr_congr hrecord, hvalue]
  by_cases hzero : load16 m (sym + 12) = 0
  · rw [if_pos hzero, if_pos hzero, hname hzero, if_neg fun h => h.1 hzero]
    exact (add_zero _).symm
  rw [if_neg hzero, if_neg hzero]
  by_cases hnum : load16 m (sym + 12) ≠ 0xFFFF ∧ load16 m (sym + 12) ≠ 0xFFFE
  · rw [if_pos hnum, if_pos hnum, if_pos ⟨hzero, hnum⟩, hva ⟨hzero, hnum⟩, add_assoc]
  · rw [if_neg hnum, if_neg hnum, if_neg fun h => hnum h.2]
    exact (add_zero _).symm

structure Resolvable (l : Library) (m : Mem) (i : BitVec 32) : Prop where
  index : i.toNat < nSymbols l m
  number : Internal (sectionNumber l m i) → (sectionNumber l m i).toNat ≤ nSections l m
  name : sectionNumber l m i = 0 → NameClear l m i

theorem sectionPtr_eq (hne : sectionNum ≠ 0) :
    sectionPtr (l.coffHdr + 20) sectionNum = sectionAt l (sectionNum.toNat - 1) := by
  have hidx : sectionNum.setWidth 32 - 1 = BitVec.ofNat 32 (sectionNum.toNat - 1) := by
    apply eq_of_toNat_eq
    rw [toNat_ofNat]
    bv_omega
  unfold sectionPtr sectionAt
  rw [hidx, mul_comm]

theorem short_name_within (hzero : load16 m (sym + 12) = 0) (hj : j ≤ (cstr m 256 sym).length) :
    Within sym 18 (sym + BitVec.ofNat 32 j) := by
  have hbyte : m (sym + BitVec.ofNat 32 12) = 0 := by
    unfold load16 at hzero
    have hlow := congrArg (BitVec.setWidth 8) hzero
    rw [setWidth_append] at hlow
    simpa using hlow
  have hlen := @cstr_length_le m 256 12 sym hbyte
  exact within_add sym (by omega) (by decide)

theorem Resolvable.cstr_eq (h : Resolvable l m i) (hzero : sectionNumber l m i = 0)
    (hrecord : ∀ x, Within (symbolAt l i) 18 x → m' x = m x)
    (houtside : ∀ x, ¬ InSections l m x → ¬ InSymbols l m x → m' x = m x) :
    cstr m' 256 (namePtr m (l.symbolsPtr + load32 m (l.coffHdr + 12) * 18) (symbolAt l i)) =
      cstr m 256 (namePtr m (l.symbolsPtr + load32 m (l.coffHdr + 12) * 18) (symbolAt l i)) := by
  apply cstr_congr
  intro j hj
  rcases h.name hzero with hshort | hlong
  · rw [hshort] at hj ⊢
    exact hrecord _ (short_name_within hzero hj)
  · exact houtside _ (hlong j hj).1 (hlong j hj).2

theorem fix_coff_symbols_spec (hfit : 18 * nSymbols l m ≤ 2 ^ 32)
    (hapart : ∀ x, InSymbols l m x → ¬ InSections l m x) :
    let strings := l.symbolsPtr + load32 m (l.coffHdr + 12) * 18
    let m' := (fixCoffSymbols getProcEx (l.coffHdr + 20) l.symbolsPtr (load32 m (l.coffHdr + 12)) strings m).1
    (∀ x, ¬ InSymbols l m x → m' x = m x) ∧ ∀ i, Resolvable l m i →
        load32 m' (symbolAt l i + 8) = symbolValue getProcEx (l.coffHdr + 20) strings m (symbolAt l i) := by
  intro strings
  have hrule := @forEach_rule _ 18 l.symbolsPtr (fixSymbol getProcEx (l.coffHdr + 20) strings) (nSymbols l m) (m, 1)
    (fun k s => (∀ x, ¬ Within l.symbolsPtr (18 * k) x → s.1 x = m x) ∧ ∀ i, i.toNat < k → Resolvable l m i →
        load32 s.1 (symbolAt l i + 8) = symbolValue getProcEx (l.coffHdr + 20) strings m (symbolAt l i)) ?_ ?_
  · exact ⟨hrule.1, fun i hi => hrule.2 i hi.index hi⟩
  · exact ⟨fun _ _ => rfl, fun i hi => absurd hi (Nat.not_lt_zero _)⟩
  · rintro k hk s ⟨hsame, hvalues⟩
    have hlt : k < 2 ^ 32 := by omega
    have hsym : l.symbolsPtr + 18 * BitVec.ofNat 32 k = symbolAt l (BitVec.ofNat 32 k) := by
      unfold symbolAt
      rw [mul_comm]
    have hnat : (BitVec.ofNat 32 k).toNat = k := by rw [toNat_ofNat, Nat.mod_eq_of_lt hlt]
    have hkidx : (BitVec.ofNat 32 k).toNat < nSymbols l m := by omega
    rw [hsym]
    refine ⟨fun x hx => ?_, fun i hi hres => ?_⟩
    · rw [fixSymbol_outside]
      · apply hsame
        unfold Within at *
        omega
      · intro hword
        have hrange := symbol_offset hfit hkidx (by decide) hword
        unfold Within at hx
        omega
    by_cases hik : i = BitVec.ofNat 32 k
    · -- The record is read for the first time.
      subst hik
      rw [fixSymbol_value]
      have hrecord : ∀ x, Within (symbolAt l (BitVec.ofNat 32 k)) 18 x → s.1 x = m x := by
        intro x hx
        apply hsame
        have hrange := @symbol_offset l m x _ 0 18 hfit hkidx (by decide) (by simpa using hx)
        unfold Within
        omega
      have hsections : ∀ x, InSections l m x → s.1 x = m x := by
        intro x hx
        apply hsame
        intro hin
        refine hapart x ?_ hx
        unfold InSymbols Within at *
        omega
      have hkeep := @symbolValue_moved getProcEx m s.1 0 (l.coffHdr + 20) strings _ hrecord ?_ ?_
      · rw [hkeep]
        split_ifs <;> exact add_zero _
      · intro hint
        rw [sectionPtr_eq hint.1, load32_congr fun x hx => hsections x (in_sections_of_section ?_ (by decide) hx)]
        · exact (add_zero _).symm
        have hnum := hres.number hint
        have hpos : (sectionNumber l m (BitVec.ofNat 32 k)).toNat ≠ 0 :=
          fun h => hint.1 (eq_of_toNat_eq h)
        unfold sectionNumber at hnum hpos
        omega
      · intro hzero
        apply hres.cstr_eq hzero hrecord
        intro x _ hx
        apply hsame
        unfold InSymbols Within at *
        omega
    · have hlt' : i.toNat < k := by
        have : i.toNat ≠ k := fun h => hik (eq_of_toNat_eq (by rw [hnat, h]))
        omega
      rw [load32_congr fun x hx => fixSymbol_outside _ _ _ _ _
        (symbol_records_apart hfit hres.index hkidx hik (by decide) (by decide) hx)]
      exact hvalues i hlt' hres

/-! ## Sections at another base -/

variable (getProcEx)

def moveSections (l : Library) (d : BitVec 32) (m : Mem) : Mem :=
  applyPatches m ((List.range (nSections l m)).map fun i => (sectionAt l i + 12, d))

theorem moveSections_zero (l : Library) (m : Mem) : moveSections l 0 m = m := by
  apply applyPatches_zero
  intro p hp
  obtain ⟨i, -, rfl⟩ := mem_map.mp hp
  rfl

theorem moveSections_outside (d : BitVec 32) (hx : ¬ InVa l m x) : moveSections l d m x = m x := by
  apply applyPatches_outside
  intro p hp hword
  obtain ⟨i, hi, rfl⟩ := mem_map.mp hp
  exact hx ⟨i, mem_range.mp hi, hword⟩

theorem va_fields_apart {i : Nat} (hi : i < nSections l m) (hj : j < nSections l m) (hij : i < j) :
    Apart (sectionAt l i + 12) (sectionAt l j + 12) := by
  apply apart_of_not_within
  intro x hx hx'
  have hrange := section_offset hi (by decide) hx
  have hrange' := section_offset hj (by decide) hx'
  omega

theorem moveSections_moved (l : Library) (d : BitVec 32) (m : Mem) : Moved l d m (moveSections l d m) := by
  refine ⟨fun x _ hx => moveSections_outside d hx, fun i hi => ?_⟩
  have hapart : ((List.range (nSections l m)).map fun i => (sectionAt l i + 12, d)).Pairwise
      fun p q => Apart p.1 q.1 := by
    rw [pairwise_map]
    exact pairwise_lt_range.imp_of_mem fun ha hb hab =>
      va_fields_apart (mem_range.mp ha) (mem_range.mp hb) hab
  have hmem : (sectionAt l i + 12, d) ∈ (List.range (nSections l m)).map fun i => (sectionAt l i + 12, d) :=
    mem_map_of_mem (mem_range.mpr hi)
  exact @load32_applyPatches m _ (sectionAt l i + 12, d) hapart hmem

def prepared (l : Library) (d : BitVec 32) (m : Mem) : Mem :=
  let m := moveSections l d m
  (fixCoffSymbols getProcEx (l.coffHdr + 20) l.symbolsPtr (load32 m (l.coffHdr + 12))
    (l.symbolsPtr + load32 m (l.coffHdr + 12) * 18) m).1

theorem link_moved (l : Library) (base d : BitVec 32) (m : Mem) :
    link getProcEx l base (moveSections l d m) =
      fixCoffRelocs l.coffHdr l.symbolsPtr (l.data - base) (prepared getProcEx l d m) := rfl

def targetValue (l : Library) (m : Mem) (r : Reloc) : BitVec 32 :=
  symbolValue getProcEx (l.coffHdr + 20) (l.symbolsPtr + load32 m (l.coffHdr + 12) * 18) m (symbolAt l r.symIndex)

abbrev TargetInternal (l : Library) (m : Mem) (r : Reloc) : Prop := Internal (sectionNumber l m r.symIndex)

namespace Object

variable (h : Object l m)
include h

theorem resolvable (hr : r ∈ relocs l m) (hp : r.Patched) : Resolvable l m r.symIndex :=
  ⟨h.indices r hr hp, h.numbers r hr hp, h.names r hr hp⟩

theorem record_kept (d : BitVec 32) (hi : i.toNat < nSymbols l m) :
    ∀ x, Within (symbolAt l i) 18 x → moveSections l d m x = m x := by
  intro x hx
  apply moveSections_outside
  intro hva
  have hin : InSymbols l m x := @in_symbols_of_symbol l m x i 0 18 h.symbols_fit hi (by decide) (by simpa using hx)
  exact (h.symbols_apart x hin).1 (in_sections_of_va hva)

theorem moved_cstr (d : BitVec 32) (hres : Resolvable l m i) (hzero : sectionNumber l m i = 0) :
    cstr (moveSections l d m) 256 (namePtr m (l.symbolsPtr + load32 m (l.coffHdr + 12) * 18) (symbolAt l i)) =
      cstr m 256 (namePtr m (l.symbolsPtr + load32 m (l.coffHdr + 12) * 18) (symbolAt l i)) :=
  hres.cstr_eq hzero (h.record_kept d hres.index) fun _ hx _ =>
    moveSections_outside d fun hva => hx (in_sections_of_va hva)

theorem moved_resolvable (d : BitVec 32) (hres : Resolvable l m i) : Resolvable l (moveSections l d m) i := by
  have hmoved := moveSections_moved l d m
  have hnumber : sectionNumber l (moveSections l d m) i = sectionNumber l m i :=
    load_number_congr (h.record_kept d hres.index)
  refine ⟨?_, ?_, ?_⟩
  · rw [hmoved.nSymbols_eq]
    exact hres.index
  · rw [hnumber, hmoved.nSections_eq]
    exact hres.number
  · rw [hnumber]
    intro hzero
    have hclear := hres.name hzero
    unfold NameClear InSections InSymbols at *
    rw [hmoved.load_nSymbols, hmoved.nSymbols_eq, hmoved.nSections_eq, namePtr_congr (h.record_kept d hres.index)]
    dsimp only at *
    rw [h.moved_cstr d hres hzero]
    exact hclear

theorem prepared_spec (d : BitVec 32) :
    (∀ x, ¬ InSymbols l m x → prepared getProcEx l d m x = moveSections l d m x) ∧
      ∀ i, Resolvable l m i → load32 (prepared getProcEx l d m) (symbolAt l i + 8) =
        symbolValue getProcEx (l.coffHdr + 20) (l.symbolsPtr + load32 m (l.coffHdr + 12) * 18) m (symbolAt l i) +
          if Internal (sectionNumber l m i) then d else 0 := by
  have hmoved := moveSections_moved l d m
  have hsymbols : ∀ x, InSymbols l (moveSections l d m) x ↔ InSymbols l m x := by
    intro x
    unfold InSymbols
    rw [hmoved.nSymbols_eq]
  have hsections : ∀ x, InSections l (moveSections l d m) x ↔ InSections l m x := by
    intro x
    unfold InSections
    rw [hmoved.nSections_eq]
  have hspec := @fix_coff_symbols_spec getProcEx l (moveSections l d m)
    (by rw [hmoved.nSymbols_eq]; exact h.symbols_fit)
    (fun x hx hin => (h.symbols_apart x ((hsymbols x).mp hx)).1 ((hsections x).mp hin))
  refine ⟨fun x hx => hspec.1 x fun hin => hx ((hsymbols x).mp hin), fun i hres => ?_⟩
  unfold prepared
  rw [hspec.2 i (h.moved_resolvable d hres), hmoved.load_nSymbols]
  apply symbolValue_moved (h.record_kept d hres.index)
  · intro hint
    have hnum := hres.number hint
    have hpos : (sectionNumber l m i).toNat ≠ 0 := fun h => hint.1 (eq_of_toNat_eq h)
    rw [sectionPtr_eq hint.1]
    apply hmoved.va
    unfold sectionNumber at hnum hpos
    omega
  · exact h.moved_cstr d hres

theorem prepared_outside (d : BitVec 32)
    (hx : ¬ InSymbols l m x) (hva : ¬ InVa l m x) : prepared getProcEx l d m x = m x := by
  rw [(h.prepared_spec getProcEx d).1 x hx, moveSections_outside d hva]

theorem prepared_moved (d : BitVec 32) : Moved l d m (prepared getProcEx l d m) := by
  refine ⟨fun x hx hva => ?_, fun i hi => ?_⟩
  · refine h.prepared_outside getProcEx d (fun hsym => ?_) hva
    rcases hx with hx | hx
    · exact (h.symbols_apart x hsym).1 hx
    · exact (h.symbols_apart x hsym).2 hx
  rw [← (moveSections_moved l d m).va i hi]
  apply load32_congr
  intro x hx
  apply (h.prepared_spec getProcEx d).1
  intro hsym
  exact (h.symbols_apart x hsym).1 (in_sections_of_section hi (by decide) hx)

end Object

/-! ## Relocations as patches of the image -/

def Reloc.addend (r : Reloc) (value : BitVec 32) : BitVec 32 :=
  if r.type = relocTypeDir32 then value else value - (r.va + r.secVa) - 4

def fixPatches (value : BitVec 32 → BitVec 32) (delta : BitVec 32) (r : Reloc) : List Patch :=
  if r.Patched then [(r.va + r.secVa + delta, r.addend (value r.symIndex))] else []

theorem fixReloc_eq (sym delta secVa reloc : BitVec 32) (m : Mem) :
    fixReloc sym delta secVa reloc m =
      applyPatches m (fixPatches (fun i => load32 m (sym + i * 18 + 8)) delta (relocAt m secVa reloc)) := by
  unfold fixReloc fixPatches
  by_cases hdir : load16 m (reloc + 8) = relocTypeDir32
  · have htype : (relocAt m secVa reloc).type = relocTypeDir32 := hdir
    rw [if_pos hdir, if_pos (.inl htype), Reloc.addend, if_pos htype]
    rfl
  have htype : (relocAt m secVa reloc).type ≠ relocTypeDir32 := hdir
  rw [if_neg hdir, Reloc.addend, if_neg htype]
  by_cases hrel : load16 m (reloc + 8) = relocTypeRel32
  · have hpatched : (relocAt m secVa reloc).Patched := .inr hrel
    rw [if_pos hrel, if_pos hpatched]
    rfl
  · have hskipped : ¬ (relocAt m secVa reloc).Patched := not_or_intro hdir hrel
    rw [if_neg hrel, if_neg hskipped]
    rfl

def rebasePatches (delta : BitVec 32) (r : Reloc) : List Patch :=
  if r.type = relocTypeDir32 then [(r.va + r.secVa + delta, delta)] else []

theorem rebaseReloc_eq (delta secVa reloc : BitVec 32) (m : Mem) :
    rebaseReloc delta secVa reloc m = applyPatches m (rebasePatches delta (relocAt m secVa reloc)) := by
  unfold rebaseReloc rebasePatches relocAt
  split_ifs <;> rfl

theorem flatMap_if {α β : Type*} (p : α → Prop) [DecidablePred p] (f : α → β) (l : List α) :
    (l.flatMap fun a => if p a then [f a] else []) = (l.filter p).map f := by
  induction l with
  | nil => rfl
  | cons a l ih =>
    rw [flatMap_cons, ih, filter_cons]
    by_cases ha : p a <;> simp [ha]

theorem within_image (hs : s.toNat + 4 ≤ size) (hx : Within (base + s) 4 x) : Within base size x := by
  unfold Within at *
  bv_omega

theorem in_image (hs : s.toNat + 4 ≤ size) (hk : Within s 4 k) : k.toNat < size := by
  unfold Within at hk
  bv_omega

theorem within_view (hk : k.toNat < size) : Within base size (base + k) := by
  unfold Within
  rwa [show base + k - base = k by ring]

/-- What linking with the sections moved by `d` adds at a relocation. -/
def linkAddend (l : Library) (d : BitVec 32) (m : Mem) (r : Reloc) : BitVec 32 :=
  (r.move d).addend (targetValue getProcEx l m r + if TargetInternal l m r then d else 0)

def linkPatches (l : Library) (d : BitVec 32) (m : Mem) : List Patch :=
  ((relocs l m).filter Reloc.Patched).map fun r => (site l r, linkAddend getProcEx l d m r)

namespace Object

theorem link_eq (h : Object l m) (d : BitVec 32) :
    link getProcEx l (l.defaultBase + d) (moveSections l d m) = applyPatches (prepared getProcEx l d m)
        ((linkPatches getProcEx l d m).map fun p => (l.data + p.1, p.2)) := by
  have hmoved := h.prepared_moved getProcEx d
  have hrelocs := hmoved.relocs_eq h.relocs_apart
  have hat : ∀ r : Reloc, (r.move d).va + (r.move d).secVa + (l.data - (l.defaultBase + d)) = l.data + site l r := by
    intro r
    unfold site Reloc.move
    ring
  have hwalk := @forRelocs_eq l (prepared getProcEx l d m) (fixReloc l.symbolsPtr (l.data - (l.defaultBase + d)))
    (fixPatches (fun i => load32 (prepared getProcEx l d m) (symbolAt l i + 8)) (l.data - (l.defaultBase + d))) ?_ ?_
  · rw [link_moved, fixCoffRelocs, hwalk, hrelocs, flatMap_map]
    congr 1
    unfold linkPatches
    rw [map_map]
    have hone : ∀ r ∈ relocs l m,
        fixPatches (fun i => load32 (prepared getProcEx l d m) (symbolAt l i + 8)) (l.data - (l.defaultBase + d))
          (r.move d) = if r.Patched then [(l.data + site l r, linkAddend getProcEx l d m r)] else [] := by
      intro r hr
      unfold fixPatches
      rw [hat]
      change (if r.Patched then _ else _) = _
      by_cases hp : r.Patched
      · rw [if_pos hp, if_pos hp]
        unfold linkAddend targetValue
        rw [← (h.prepared_spec getProcEx d).2 _ (h.resolvable hr hp)]
        rfl
      · rw [if_neg hp, if_neg hp]
    rw [flatMap_congr hone, flatMap_if]
    rfl
  · -- The pass reads the symbols from a memory that it changes.
    intro m' hm' secVa reloc hmem
    rw [fixReloc_eq]
    congr 1
    unfold fixPatches
    by_cases hp : (relocAt m' secVa reloc).Patched
    · rw [if_pos hp, if_pos hp]
      have hindex : (relocAt m' secVa reloc).symIndex.toNat < nSymbols l m := by
        rw [hrelocs] at hmem
        obtain ⟨r, hr, hreq⟩ := mem_map.mp hmem
        rw [← hreq] at hp ⊢
        exact h.indices r hr hp
      have hvalue : load32 m' (symbolAt l (relocAt m' secVa reloc).symIndex + 8) =
          load32 (prepared getProcEx l d m) (symbolAt l (relocAt m' secVa reloc).symIndex + 8) :=
        load32_congr fun x hx => hm' x (hmoved.inTables_iff.mpr
          (.inr (.inl (in_symbols_of_symbol h.symbols_fit hindex (by decide) hx))))
      dsimp only
      rw [← hvalue]
      rfl
    · rw [if_neg hp, if_neg hp]
  · intro r hr p hp x hx hin
    rw [hrelocs] at hr
    obtain ⟨r, hr', rfl⟩ := mem_map.mp hr
    unfold fixPatches at hp
    split at hp
    · next hpatched =>
      rw [mem_singleton] at hp
      rw [hp, hat] at hx
      exact h.image_apart x (.inl (within_image (h.sites_inside r hr' hpatched) hx)) (hmoved.inTables_iff.mp hin)
    · cases hp

theorem view_link (h : Object l m) (d : BitVec 32) :
    ∀ k, k.toNat < l.size.toNat → view (link getProcEx l (l.defaultBase + d) (moveSections l d m)) l.data k =
      applyPatches (view m l.data) (linkPatches getProcEx l d m) k := by
  rw [h.link_eq getProcEx d, view_applyPatches]
  apply applyPatches_congr
  · intro p hp x hx
    obtain ⟨r, hr, rfl⟩ := mem_map.mp hp
    obtain ⟨hr, hpatched⟩ := mem_filter.mp hr
    have hinside := h.sites_inside r hr (of_decide_eq_true hpatched)
    exact in_image hinside hx
  intro k hk
  have hout := h.image_apart (l.data + k) (.inl (within_view hk))
  apply h.prepared_outside getProcEx d
  · exact fun hin => hout (.inr (.inl hin))
  · exact fun hva => hout (.inl (in_sections_of_va hva))

end Object

/-! ## Both images -/

theorem view_mapPages (l : Library) (m : Mem) (hk : k.toNat < l.size.toNat) :
    view (mapPages l m) l.imgBase k = view m l.data k := by
  unfold view mapPages
  rw [if_pos (within_view hk), show l.imgBase + k - l.imgBase = k by ring]

def dirPatches (l : Library) (m : Mem) : List Patch :=
  ((relocs l m).filter fun r => r.type = relocTypeDir32).map fun r => (site l r, l.imgBase - l.defaultBase)

namespace Object

theorem view_rebase (h : Object l m) :
    ∀ k, k.toNat < l.size.toNat →
      view (rebaseCoff l.coffHdr (l.imgBase - l.defaultBase) (mapPages l (link getProcEx l l.defaultBase m)))
        l.imgBase k =
        applyPatches (applyPatches (view m l.data) (linkPatches getProcEx l 0 m)) (dirPatches l m) k := by
  have hlink : link getProcEx l l.defaultBase m = link getProcEx l (l.defaultBase + 0) (moveSections l 0 m) := by
    rw [moveSections_zero, show l.defaultBase + 0 = l.defaultBase from add_zero _]
  have hprepared := h.prepared_moved getProcEx 0
  -- Neither the link nor the mapping touches the tables.
  have htables : ∀ x, InTables l m x → mapPages l (link getProcEx l l.defaultBase m) x = prepared getProcEx l 0 m x := by
    intro x hx
    unfold mapPages
    rw [if_neg fun hin => h.image_apart x (.inr hin) hx, hlink, h.link_eq getProcEx 0]
    apply applyPatches_outside
    intro p hp hword
    obtain ⟨q, hq, rfl⟩ := mem_map.mp hp
    obtain ⟨r, hr, rfl⟩ := mem_map.mp hq
    obtain ⟨hr, hpatched⟩ := mem_filter.mp hr
    exact h.image_apart x (.inl (within_image (h.sites_inside r hr (of_decide_eq_true hpatched)) hword)) hx
  have hmoved : Moved l 0 m (mapPages l (link getProcEx l l.defaultBase m)) := by
    refine ⟨fun x hx hva => ?_, fun i hi => ?_⟩
    · rw [htables x (hx.imp_right .inr), hprepared.same x hx hva]
    · rw [← hprepared.va i hi]
      exact load32_congr fun x hx => htables x (.inl (in_sections_of_section hi (by decide) hx))
  have hrelocs : relocs l (mapPages l (link getProcEx l l.defaultBase m)) = relocs l m := by
    have hmove : Reloc.move 0 = id := by
      funext r
      unfold Reloc.move
      rw [show r.secVa + 0 = r.secVa from add_zero _]
      rfl
    rw [hmoved.relocs_eq h.relocs_apart, hmove, map_id]
  have hat : ∀ r : Reloc, r.va + r.secVa + (l.imgBase - l.defaultBase) = l.imgBase + site l r := by
    intro r
    unfold site
    ring
  have hwalk := @forRelocs_eq l (mapPages l (link getProcEx l l.defaultBase m))
    (rebaseReloc (l.imgBase - l.defaultBase)) (rebasePatches (l.imgBase - l.defaultBase))
    (fun m' _ secVa reloc _ => rebaseReloc_eq _ secVa reloc m') ?_
  · have hlist : (relocs l m).flatMap (rebasePatches (l.imgBase - l.defaultBase)) =
        (dirPatches l m).map fun p => (l.imgBase + p.1, p.2) := by
      unfold rebasePatches dirPatches
      rw [flatMap_if, map_map]
      apply map_congr_left
      intro r _
      rw [hat]
      rfl
    rw [rebaseCoff, hwalk, hrelocs, hlist, view_applyPatches]
    apply applyPatches_congr
    · intro p hp x hx
      obtain ⟨r, hr, rfl⟩ := mem_map.mp hp
      obtain ⟨hr, hdir⟩ := mem_filter.mp hr
      exact in_image (h.sites_inside r hr (.inl (of_decide_eq_true hdir))) hx
    · intro k hk
      rw [view_mapPages l _ hk, hlink]
      exact h.view_link getProcEx 0 k hk
  · intro r hr p hp x hx hin
    rw [hrelocs] at hr
    unfold rebasePatches at hp
    split at hp
    · next hdir =>
      rw [mem_singleton] at hp
      rw [hp, hat] at hx
      exact h.image_apart x (.inr (within_image (h.sites_inside r hr (.inl hdir)) hx)) (hmoved.inTables_iff.mp hin)
    · cases hp

end Object

theorem addends_eq_iff (l : Library) (d : BitVec 32) (m : Mem) (hd : d ≠ 0) :
    linkAddend getProcEx l 0 m r + (if r.type = relocTypeDir32 then d else 0) = linkAddend getProcEx l d m r ↔
      TargetInternal l m r := by
  unfold linkAddend Reloc.addend Reloc.move
  generalize targetValue getProcEx l m r = value
  by_cases hint : TargetInternal l m r <;> by_cases hdir : r.type = relocTypeDir32
  · simp [hint, hdir]
  · simp only [hint, hdir, if_true, if_false]
    constructor
    · exact fun _ => trivial
    · intro _
      ring
  · simp only [hint, hdir, if_true, if_false, iff_false]
    intro h
    apply hd
    have h' := sub_eq_zero.mpr h
    ring_nf at h'
    exact h'
  · simp only [hint, hdir, if_false, iff_false]
    intro h
    apply hd
    have h' := sub_eq_zero.mpr h
    ring_nf at h'
    exact h'

def ImagesAgree (l : Library) (m : Mem) : Prop :=
  ∀ k : BitVec 32, k.toNat < l.size.toNat → loadLibrary getProcEx l m (l.imgBase + k) =
    mapPages l (link getProcEx l l.imgBase (moveSections l (l.imgBase - l.defaultBase) m)) (l.imgBase + k)

namespace Object

theorem linkPatches_apart (h : Object l m) (d : BitVec 32) :
    (linkPatches getProcEx l d m).Pairwise fun p q => Apart p.1 q.1 :=
  pairwise_map.mpr h.sites_apart

theorem dirPatches_apart (h : Object l m) : (dirPatches l m).Pairwise fun p q => Apart p.1 q.1 := by
  apply pairwise_map.mpr
  refine h.sites_apart.sublist (monotone_filter_right _ fun r hr => ?_)
  exact decide_eq_true (.inl (of_decide_eq_true hr))

theorem load32_rebased (h : Object l m) (image : Mem) (hr : r ∈ relocs l m)
    (hp : r.Patched) :
    load32 (applyPatches (applyPatches image (linkPatches getProcEx l 0 m)) (dirPatches l m)) (site l r) =
      load32 image (site l r) +
        (linkAddend getProcEx l 0 m r + if r.type = relocTypeDir32 then l.imgBase - l.defaultBase else 0) := by
  have hmem : r ∈ (relocs l m).filter Reloc.Patched := mem_filter.mpr ⟨hr, decide_eq_true hp⟩
  have hlink := @load32_applyPatches image _ (site l r, linkAddend getProcEx l 0 m r)
    (h.linkPatches_apart getProcEx 0) (mem_map_of_mem hmem)
  by_cases hdir : r.type = relocTypeDir32
  · have hmem' : r ∈ (relocs l m).filter fun r => r.type = relocTypeDir32 :=
      mem_filter.mpr ⟨hr, decide_eq_true hdir⟩
    have hrebase := @load32_applyPatches (applyPatches image (linkPatches getProcEx l 0 m)) _
      (site l r, l.imgBase - l.defaultBase) h.dirPatches_apart (mem_map_of_mem hmem')
    rw [hrebase, hlink, if_pos hdir, add_assoc]
  rw [load32_applyPatches_apart, hlink, if_neg hdir, show ∀ v : BitVec 32, v + 0 = v from add_zero]
  intro p hp
  obtain ⟨s, hs, rfl⟩ := mem_map.mp hp
  obtain ⟨hs, hsdir⟩ := mem_filter.mp hs
  have hsdir := of_decide_eq_true hsdir
  have hsmem : s ∈ (relocs l m).filter Reloc.Patched := mem_filter.mpr ⟨hs, decide_eq_true (.inl hsdir)⟩
  have : Std.Symm fun r s => Apart (site l r) (site l s) := ⟨fun _ _ h => h.symm⟩
  exact h.sites_apart.forall hsmem hmem fun heq => hdir (heq ▸ hsdir)

theorem load32_linked (h : Object l m) (d : BitVec 32) (image : Mem)
    (hr : r ∈ relocs l m) (hp : r.Patched) :
    load32 (applyPatches image (linkPatches getProcEx l d m)) (site l r) =
      load32 image (site l r) + linkAddend getProcEx l d m r :=
  @load32_applyPatches image _ (site l r, linkAddend getProcEx l d m r) (h.linkPatches_apart getProcEx d)
    (mem_map_of_mem (mem_filter.mpr ⟨hr, decide_eq_true hp⟩))

end Object

/-- **Rebasing equals linking** if the image stays or every relocation is against a section, and only then. -/
theorem load_library_images_agree_iff (getProcEx : List (BitVec 8) → BitVec 32) (l : Library) (m : Mem)
    (h : Object l m) :
    ImagesAgree getProcEx l m ↔ l.imgBase = l.defaultBase ∨ ∀ r ∈ relocs l m, r.Patched → TargetInternal l m r := by
  unfold ImagesAgree loadLibrary
  by_cases hbase : l.imgBase = l.defaultBase
  · have hzero : l.imgBase - l.defaultBase = 0 := by rw [hbase, BitVec.sub_self]; rfl
    rw [hzero, if_pos rfl, moveSections_zero, hbase]
    exact ⟨fun _ => .inl rfl, fun _ _ _ => rfl⟩
  have hne : l.imgBase - l.defaultBase ≠ 0 := fun h => hbase (sub_eq_zero.mp h)
  have hsum : l.defaultBase + (l.imgBase - l.defaultBase) = l.imgBase := by ring
  -- Both images, as patches of the image before the passes.
  have hrebased := h.view_rebase getProcEx
  have hlinked : ∀ k : BitVec 32, k.toNat < l.size.toNat →
      mapPages l (link getProcEx l l.imgBase (moveSections l (l.imgBase - l.defaultBase) m)) (l.imgBase + k) =
        applyPatches (view m l.data) (linkPatches getProcEx l (l.imgBase - l.defaultBase) m) k := by
    intro k hk
    have hview := h.view_link getProcEx (l.imgBase - l.defaultBase) k hk
    rw [hsum] at hview
    rw [← hview]
    exact view_mapPages l _ hk
  rw [if_neg hne]
  constructor
  · intro hagree
    refine .inr fun r hr hp => ?_
    apply (addends_eq_iff getProcEx l (l.imgBase - l.defaultBase) m hne).mp
    have hword : load32 (applyPatches (applyPatches (view m l.data) (linkPatches getProcEx l 0 m)) (dirPatches l m))
        (site l r) =
        load32 (applyPatches (view m l.data) (linkPatches getProcEx l (l.imgBase - l.defaultBase) m)) (site l r) := by
      apply load32_congr
      intro k hk
      have hk := in_image (h.sites_inside r hr hp) hk
      rw [← hrebased k hk, ← hlinked k hk]
      exact hagree k hk
    rw [h.load32_rebased getProcEx _ hr hp, h.load32_linked getProcEx _ _ hr hp] at hword
    exact add_left_cancel hword
  rintro (hsame | hinternal) k hk
  · exact absurd hsame hbase
  rw [hlinked k hk]
  refine (hrebased k hk).trans ?_
  by_cases hsite : ∃ r ∈ relocs l m, r.Patched ∧ Within (site l r) 4 k
  · obtain ⟨r, hr, hp, hin⟩ := hsite
    refine eq_of_load32 ?_ hin
    rw [h.load32_rebased getProcEx _ hr hp, h.load32_linked getProcEx _ _ hr hp,
      (addends_eq_iff getProcEx l (l.imgBase - l.defaultBase) m hne).mpr (hinternal r hr hp)]
  -- No relocation has this byte.
  have hout : ∀ r ∈ relocs l m, r.Patched → ¬ Within (site l r) 4 k :=
    fun r hr hp hin => hsite ⟨r, hr, hp, hin⟩
  have hlinkout : ∀ d, ∀ p ∈ linkPatches getProcEx l d m, ¬ Within p.1 4 k := by
    intro d p hp
    obtain ⟨r, hr, rfl⟩ := mem_map.mp hp
    obtain ⟨hr, hpatched⟩ := mem_filter.mp hr
    exact hout r hr (of_decide_eq_true hpatched)
  rw [applyPatches_outside, applyPatches_outside _ (hlinkout _), applyPatches_outside _ (hlinkout _)]
  intro p hp
  obtain ⟨r, hr, rfl⟩ := mem_map.mp hp
  obtain ⟨hr, hdir⟩ := mem_filter.mp hr
  exact hout r hr (.inl (of_decide_eq_true hdir))

/-! ## A small object -/

def smallLibrary : Library where
  coffHdr := 0x1000
  symbolsPtr := 0x2000
  data := 0x3000
  size := 8
  defaultBase := 0x4000
  imgBase := 0x5000

def smallMemory (sectionNum : BitVec 16) : Mem := fun a =>
  if a = 0x1002 then 1
  else if a = 0x100C then 1
  else if a = 0x1021 then 0x40
  else if a = 0x102C then 0x40
  else if a = 0x1034 then 1
  else if a = 0x1048 then 6
  else if a = 0x2008 then 5
  else if a = 0x200C then sectionNum.setWidth 8
  else if a = 0x200D then (sectionNum >>> 8).setWidth 8
  else 0

theorem small_object (hnum : sectionNum = 1 ∨ sectionNum = 0xFFFF) :
    Object smallLibrary (smallMemory sectionNum) := by
  have hsections : nSections smallLibrary (smallMemory sectionNum) = 1 := by
    rcases hnum with rfl | rfl <;> decide +kernel
  have hsymbols : nSymbols smallLibrary (smallMemory sectionNum) = 1 := by
    rcases hnum with rfl | rfl <;> decide +kernel
  have htable : relocTable smallLibrary (smallMemory sectionNum) 0 = 0x1040 := by
    rcases hnum with rfl | rfl <;> decide +kernel
  have hcount : numReloc smallLibrary (smallMemory sectionNum) 0 = 1 := by
    rcases hnum with rfl | rfl <;> decide +kernel
  have hrelocs : relocs smallLibrary (smallMemory sectionNum) = [⟨0x4000, 0, 0, 6⟩] := by
    rcases hnum with rfl | rfl <;> decide +kernel
  have hnumber : sectionNumber smallLibrary (smallMemory sectionNum) 0 = sectionNum := by
    rcases hnum with rfl | rfl <;> decide +kernel
  have hrelocTable : ∀ x, InRelocs smallLibrary (smallMemory sectionNum) x → Within 0x1040 10 x := by
    rintro x ⟨i, hi, hx⟩
    obtain rfl : i = 0 := by omega
    rwa [htable, hcount] at hx
  have hinTables : ∀ x, InTables smallLibrary (smallMemory sectionNum) x →
      Within 0x1000 60 x ∨ Within 0x2000 18 x ∨ Within 0x1040 10 x := by
    intro x hx
    unfold InTables InSections InSymbols at hx
    rw [hsections, hsymbols] at hx
    exact hx.imp_right (Or.imp_right (hrelocTable x))
  refine ⟨by rw [hsymbols]; decide, fun x hx => ⟨fun hin => ?_, fun hin => ?_⟩, fun x hx hin => ?_, fun x hx hin => ?_,
    ?_, ?_, ?_, ?_, ?_⟩
  · unfold InSymbols InSections at *
    unfold Within smallLibrary at *
    bv_omega
  · have hin := hrelocTable x hin
    unfold InSymbols at hx
    unfold Within smallLibrary at *
    bv_omega
  · have hx := hrelocTable x hx
    unfold InSections at hin
    unfold Within smallLibrary at *
    bv_omega
  · have hin := hinTables x hin
    change Within 0x3000 8 x ∨ Within 0x5000 8 x at hx
    unfold Within at *
    bv_omega
  all_goals rw [hrelocs]
  · intro r hr _
    rw [mem_singleton.mp hr]
    decide
  · decide
  · intro r hr _
    rw [mem_singleton.mp hr, hsymbols]
    decide
  · intro r hr _ hint
    rw [mem_singleton.mp hr] at hint ⊢
    rw [hsections]
    rcases hnum with rfl | rfl
    · decide
    · exact absurd rfl hint.2.1
  · intro r hr _ hzero
    rw [mem_singleton.mp hr, hnumber] at hzero
    rcases hnum with rfl | rfl <;> cases hzero

/-- A reference to the section itself moves with the image. -/
theorem load_library_images_agree_internal : ImagesAgree (fun _ => 0) smallLibrary (smallMemory 1) := by
  refine (load_library_images_agree_iff _ _ _ (small_object (.inl rfl))).mpr (.inr ?_)
  have hall : ∀ r ∈ relocs smallLibrary (smallMemory 1), TargetInternal smallLibrary (smallMemory 1) r := by
    decide +kernel
  exact fun r hr _ => hall r hr

/-- The value of an absolute symbol is moved although it has no section. -/
theorem load_library_moves_absolute :
    ¬ ∀ (getProcEx : List (BitVec 8) → BitVec 32) (l : Library) (m : Mem),
      Object l m → ImagesAgree getProcEx l m := by
  intro hall
  have hagree := hall (fun _ => 0) smallLibrary (smallMemory 0xFFFF) (small_object (.inr rfl)) 1 (by decide)
  revert hagree
  decide +kernel

end Kolibri.Coff
