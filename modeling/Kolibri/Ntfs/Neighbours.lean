import Kolibri.Ntfs.Record

/-!
# The attributes behind a run list that grows

The record gets eight bytes more. A run takes up to ten with its terminator.
-/

namespace Kolibri.Ntfs

open Buffer BitVec

def attrSize (bytes : Nat → BitVec 8) (off : Nat) : BitVec 32 := Bytes.readU32 bytes (off + offSizeWithHeader)

inductive Attributes (bytes : Nat → BitVec 8) : Nat → List Nat → Nat → Prop
  | nil (off : Nat) : Attributes bytes off [] off
  | cons {off last : Nat} {offs : List Nat} (haligned : 8 ∣ (attrSize bytes off).toNat)
      (hrest : Attributes bytes (off + (attrSize bytes off).toNat) offs last) : Attributes bytes off (off :: offs) last

/-- A file record with the fields of its header before the attributes and room for eight bytes. -/
structure FileRecord where
  frs : Buffer
  first : Nat
  attrs : List Nat
  header : offRecordAllocatedSize + 4 ≤ first
  attributes : Attributes frs.bytes first attrs (Bytes.readU32 frs.bytes offRecordRealSize).toNat
  room : (Bytes.readU32 frs.bytes offRecordRealSize).toNat + 8 ≤
    (Bytes.readU32 frs.bytes offRecordAllocatedSize).toNat

def FileRecord.real (rec : FileRecord) : Nat := (Bytes.readU32 rec.frs.bytes offRecordRealSize).toNat

theorem Attributes.aligned {bytes : Nat → BitVec 8} {first last : Nat} {offs : List Nat}
    (h : Attributes bytes first offs last) : ∃ k, first + 8 * k = last := by
  induction h with
  | nil off => exact ⟨0, rfl⟩
  | cons haligned hrest ih =>
    obtain ⟨m, hm⟩ := haligned
    obtain ⟨k, hk⟩ := ih
    exact ⟨m + k, by omega⟩

theorem Attributes.mem {bytes : Nat → BitVec 8} {first last off : Nat} {offs : List Nat}
    (h : Attributes bytes first offs last) (hoff : off ∈ offs) :
    first ≤ off ∧ 8 ∣ (attrSize bytes off).toNat ∧ ∃ k, off + (attrSize bytes off).toNat + 8 * k = last := by
  induction h with
  | nil => cases hoff
  | cons haligned hrest ih =>
    rcases List.mem_cons.mp hoff with rfl | hoff
    · exact ⟨Nat.le_refl _, haligned, hrest.aligned⟩
    · obtain ⟨hle, hlater⟩ := ih hoff
      exact ⟨by omega, hlater⟩

/-! ## The two sizes -/

theorem toNat_bumpSize (s : BitVec 32) :
    (bumpSize s).toNat = s.toNat / 65536 * 65536 + (s.toNat % 65536 + 8) % 65536 := by
  have height : (8 : BitVec 16).toNat = 8 := rfl
  rw [bumpSize, Registers.toNat_setLow16, toNat_add, Registers.toNat_low16, height]

theorem needExtend_iff {start size attrSize : BitVec 32} {attrOff dest : Nat} (hdest : dest + 9 < 2 ^ 32)
    (hattr : attrOff + attrSize.toNat < 2 ^ 32) :
    needExtend start size attrSize attrOff dest ↔
      attrOff + attrSize.toNat ≤ dest + 1 + mcbSizeWidth size + mcbStartWidth start := by
  have hsizeW := mcbSizeWidth_bounds size
  have hstartW := mcbStartWidth_bounds start
  unfold needExtend
  dsimp only
  rw [lt_def]
  simp only [toNat_add, toNat_ofNat]
  have hone : (1 : BitVec 32).toNat = 1 := rfl
  omega

/-! ## Neighbours -/

section Extend

variable {start size : BitVec 32} {attrOff dest : Nat} {r : CreateMcbResult} {frs' : Buffer} (rec : FileRecord)

def NeighboursMoved (attrOff : Nat) (frs' : Buffer) : Prop :=
  ∀ i, attrOff + (attrSize rec.frs.bytes attrOff).toNat ≤ i → i < rec.real → frs'.bytes (i + 8) = rec.frs.bytes i

def RunInside (attrOff dest : Nat) (r : CreateMcbResult) : Prop :=
  ∀ i, dest ≤ i → i ≤ r.destOff → i < attrOff + (bumpSize (attrSize rec.frs.bytes attrOff)).toNat

theorem FileRecord.toNat_newReal : (Bytes.readU32 rec.frs.bytes offRecordRealSize + 8).toNat = rec.real + 8 := by
  have hroom := rec.room
  have height : (8 : BitVec 32).toNat = 8 := rfl
  rw [toNat_add, height, Nat.mod_eq_of_lt (by omega)]
  rfl

theorem grownBytes_behind (hattr : attrOff ∈ rec.attrs) (hlo : attrOff ≤ dest)
    (hhi : dest < attrOff + (attrSize rec.frs.bytes attrOff).toNat) {i : Nat}
    (hi : attrOff + (attrSize rec.frs.bytes attrOff).toNat ≤ i) (hreal : i < rec.real) :
    grownBytes rec.frs.bytes attrOff dest (i + 8) = rec.frs.bytes i := by
  obtain ⟨hfirst, ⟨m, hm⟩, k, hk⟩ := rec.attributes.mem hattr
  have hheader := rec.header
  change _ = rec.real at hk
  unfold offRecordAllocatedSize at hheader
  unfold grownBytes slidBytes
  rw [rec.toNat_newReal, if_pos (by omega), Nat.add_sub_cancel]
  -- Both sizes lie before the end of the attribute.
  unfold Bytes.writeU32 offRecordRealSize offSizeWithHeader
  rw [if_neg (by omega), if_neg (by omega)]

/-- A record that grows keeps the attributes behind the run list, with two exceptions. -/
theorem createMcbEntry_keeps_iff (rec : FileRecord) (hattr : attrOff ∈ rec.attrs) (hlo : attrOff ≤ dest)
    (hhi : dest < attrOff + (attrSize rec.frs.bytes attrOff).toNat)
    (h : createMcbEntry start size rec.frs attrOff dest = some (r, frs')) (hgrows : r.needCld = true) :
    NeighboursMoved rec attrOff frs' ∧ RunInside rec attrOff dest r ↔
      Registers.low16 (attrSize rec.frs.bytes attrOff) ≠ 0xFFF8 ∧
        ¬ (dest + 1 = attrOff + (attrSize rec.frs.bytes attrOff).toNat ∧ mcbSizeWidth size = 4 ∧
          mcbStartWidth start = 4) := by
  obtain ⟨hfirst, ⟨m, hm⟩, k, hk⟩ := rec.attributes.mem hattr
  change _ = rec.real at hk
  have hroom := rec.room
  change rec.real + 8 ≤ _ at hroom
  have hsizeW := mcbSizeWidth_bounds size
  have hstartW := mcbStartWidth_bounds start
  have hwrap : Registers.low16 (attrSize rec.frs.bytes attrOff) ≠ 0xFFF8 ↔
      (attrSize rec.frs.bytes attrOff).toNat % 65536 ≠ 0xFFF8 := by
    have htop : (0xFFF8 : BitVec 16).toNat = 0xFFF8 := rfl
    rw [ne_eq, ← toNat_inj, Registers.toNat_low16, htop]
  have hbump := toNat_bumpSize (attrSize rec.frs.bytes attrOff)
  obtain ⟨hdest, -, hwrote⟩ := createMcbEntry_spec h (.inr hgrows)
  rw [length_runBytes] at hdest
  cases hwrote with
  | fits _ hcld => rw [hcld] at hgrows; cases hgrows
  | grows hextend =>
    have hend : attrOff + (attrSize rec.frs.bytes attrOff).toNat ≤ r.destOff := by
      have := (needExtend_iff (by omega) (by change _ + (attrSize rec.frs.bytes attrOff).toNat < _; omega)).mp hextend
      change _ + (attrSize rec.frs.bytes attrOff).toNat ≤ _ at this
      omega
    rw [hwrap]
    generalize hs : (attrSize rec.frs.bytes attrOff).toNat = s at *
    constructor
    · rintro ⟨-, hinside⟩
      have hlast := hinside r.destOff (by omega) (Nat.le_refl _)
      constructor <;> omega
    rintro ⟨hlow, hwidths⟩
    refine ⟨fun i hi hreal => ?_, fun i _ hi => ?_⟩
    · change overlay _ _ _ (i + 8) = _
      rw [overlay_of_ge]
      · exact grownBytes_behind rec hattr hlo (by omega) hi hreal
      · rw [List.length_append, length_runBytes, List.length_singleton]
        omega
    · rw [hbump]
      omega

end Extend

def twoAttributesBytes (i : Nat) : BitVec 8 :=
  if i = offRecordRealSize then 0x48
  else if i = offRecordAllocatedSize then 0x60
  else if i = 0x20 + offSizeWithHeader then 0x18
  else if i = 0x38 then 0x90
  else if i = 0x38 + offSizeWithHeader then 0x10
  else 0

def twoAttributes : FileRecord where
  frs := { len := 0x60, bytes := twoAttributesBytes }
  first := 0x20
  attrs := [0x20, 0x38]
  header := by decide
  attributes := by
    have hfirst : (attrSize twoAttributesBytes 0x20).toNat = 0x18 := by decide +kernel
    have hsecond : (attrSize twoAttributesBytes (0x20 + 0x18)).toNat = 0x10 := by decide +kernel
    have hreal : (Bytes.readU32 twoAttributesBytes offRecordRealSize).toNat = 0x20 + 0x18 + 0x10 := by decide +kernel
    rw [hreal]
    refine .cons (by rw [hfirst]; decide) ?_
    rw [hfirst]
    refine .cons (by rw [hsecond]; decide) ?_
    rw [hsecond]
    exact .nil _
  room := by decide +kernel

theorem createMcbEntry_keeps_short :
    ∃ r frs', createMcbEntry 5 3 twoAttributes.frs 0x20 0x36 = some (r, frs') ∧
      NeighboursMoved twoAttributes 0x20 frs' ∧ RunInside twoAttributes 0x20 0x36 r := by
  have hgrows : (createMcbEntry 5 3 twoAttributes.frs 0x20 0x36).map (fun p => p.1.needCld) = some true := by
    decide +kernel
  obtain ⟨⟨r, frs'⟩, h, hcld⟩ := Option.map_eq_some_iff.mp hgrows
  have hkeeps := createMcbEntry_keeps_iff twoAttributes (by decide) (by decide) (by decide +kernel) h hcld
  exact ⟨r, frs', h, hkeeps.mpr ⟨by decide +kernel, by decide +kernel⟩⟩

/-- The terminator of the longest run is the first byte of the next attribute. -/
theorem createMcbEntry_hits_neighbour :
    ¬ ∀ (rec : FileRecord) (start size : BitVec 32) (attrOff dest : Nat) (r : CreateMcbResult) (frs' : Buffer),
      attrOff ∈ rec.attrs → attrOff ≤ dest → dest < attrOff + (attrSize rec.frs.bytes attrOff).toNat →
        createMcbEntry start size rec.frs attrOff dest = some (r, frs') → r.needCld = true →
          NeighboursMoved rec attrOff frs' ∧ RunInside rec attrOff dest r := by
  intro h
  have hgrows : (createMcbEntry 0x12345678 0x7FFFFFFF twoAttributes.frs 0x20 0x37).map
      (fun p => (p.1.needCld, p.1.destOff, p.2.bytes 0x40)) = some (true, 0x40, 0) := by decide +kernel
  obtain ⟨⟨r, frs'⟩, hcreate, hresult⟩ := Option.map_eq_some_iff.mp hgrows
  simp only [Prod.mk.injEq] at hresult
  obtain ⟨hcld, -, hbyte⟩ := hresult
  obtain ⟨hmoved, -⟩ := h twoAttributes _ _ 0x20 0x37 r frs' (by decide) (by decide) (by decide +kernel) hcreate hcld
  have hfirst : frs'.bytes (0x38 + 8) = 0x90 := hmoved 0x38 (by decide +kernel) (by decide +kernel)
  rw [hbyte] at hfirst
  cases hfirst

end Kolibri.Ntfs
