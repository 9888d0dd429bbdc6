import Kolibri.Ntfs.Codec

/-!
# File records that grow
-/

namespace Kolibri.Ntfs

open Buffer Option

/-- The bytes from `dest` on moved up by eight, as far as whole words before `newReal` go. -/
def slidBytes (bytes : Nat → BitVec 8) (dest newReal : Nat) : Nat → BitVec 8 :=
  fun i => if newReal - 4 * ((newReal - dest - 8) / 4) ≤ i ∧ i < newReal then bytes (i - 8) else bytes i

variable {frs frs' : Buffer} {dest attrOff i : Nat} {r : CreateMcbResult} {size start : BitVec 32}

theorem slide_spec {count src : Nat} (hsrc : 4 * count ≤ src + 4) (h : slide count frs src (src + 8) = some frs') :
    frs' = { frs with
      bytes := fun i => if src + 12 - 4 * count ≤ i ∧ i < src + 12 then frs.bytes (i - 8) else frs.bytes i } := by
  induction count generalizing src frs with
  | zero =>
    cases h
    refine congrArg (Buffer.mk frs'.len) (funext fun i => ?_)
    rw [if_neg (by omega)]
  | succ count ih =>
    rw [slide, bind_eq_bind, bind_eq_some_iff] at h
    obtain ⟨v, hread, h⟩ := h
    rw [bind_eq_bind, bind_eq_some_iff] at h
    obtain ⟨frs1, hwrite, h⟩ := h
    obtain ⟨-, rfl⟩ := readU32?_eq_some hread
    obtain ⟨-, rfl⟩ := writeU32?_eq_some hwrite
    cases count with
    | zero =>
      cases h
      refine congrArg (Buffer.mk frs.len) (funext fun i => ?_)
      rw [Bytes.writeU32_readU32]
      split_ifs <;> first | omega | rfl | (congr 1; omega)
    | succ count =>
      rw [show src + 8 - 4 = src - 4 + 8 by omega] at h
      rw [ih (by omega) h]
      refine congrArg (Buffer.mk frs.len) (funext fun i => ?_)
      dsimp only
      rw [Bytes.writeU32_readU32, Bytes.writeU32_readU32]
      split_ifs <;> first | omega | rfl | (congr 1; omega)

theorem frsSlideMakeRoom_spec {newReal : Nat} (h : frsSlideMakeRoom frs dest newReal = some frs') :
    dest + 8 ≤ newReal ∧ frs' = { frs with bytes := slidBytes frs.bytes dest newReal } := by
  unfold frsSlideMakeRoom at h
  split_ifs at h with hroom
  refine ⟨by omega, ?_⟩
  unfold slidBytes
  generalize hcount : (newReal - dest - 8) / 4 = count at h ⊢
  cases count with
  | zero =>
    cases h
    refine congrArg (Buffer.mk frs.len) (funext fun i => ?_)
    rw [if_neg (by omega)]
  | succ count =>
    rw [show newReal - 4 = newReal - 12 + 8 by omega] at h
    rw [slide_spec (by omega) h, show newReal - 12 + 12 = newReal by omega]

def grownBytes (bytes : Nat → BitVec 8) (attrOff dest : Nat) : Nat → BitVec 8 :=
  let newReal := Bytes.readU32 bytes offRecordRealSize + 8
  let attrSize := Bytes.readU32 bytes (attrOff + offSizeWithHeader)
  let bytes := Bytes.writeU32 bytes (attrOff + offSizeWithHeader) (bumpSize attrSize)
  let bytes := Bytes.writeU32 bytes offRecordRealSize newReal
  slidBytes bytes dest newReal.toNat

/-- What a call that writes does. -/
inductive Wrote (start size : BitVec 32) (frs : Buffer) (attrOff dest : Nat) (r : CreateMcbResult) : Buffer → Prop
  | fits (hfits : ¬ needExtend start size (Bytes.readU32 frs.bytes (attrOff + offSizeWithHeader)) attrOff dest)
      (hcld : r.needCld = false) :
      Wrote start size frs attrOff dest r
        { frs with bytes := overlay frs.bytes dest (runBytes start size ++ [0]) }
  | grows (hgrows : needExtend start size (Bytes.readU32 frs.bytes (attrOff + offSizeWithHeader)) attrOff dest)
      (hroom : dest + 8 ≤ (Bytes.readU32 frs.bytes offRecordRealSize + 8).toNat) (hcld : r.needCld = true) :
      Wrote start size frs attrOff dest r
        { frs with bytes := overlay (grownBytes frs.bytes attrOff dest) dest (runBytes start size ++ [0]) }

/-- A call that does not write has only added to the size of the attribute. -/
structure Full (frs : Buffer) (attrOff dest : Nat) (r : CreateMcbResult) (frs' : Buffer) : Prop where
  full : Bytes.readU32 frs.bytes offRecordAllocatedSize < Bytes.readU32 frs.bytes offRecordRealSize + 8
  destOff : r.destOff = dest
  needCld : r.needCld = false
  wrote : r.wrote = false
  bytes : frs' = { frs with
    bytes := Bytes.writeU32 frs.bytes (attrOff + offSizeWithHeader)
      (bumpSize (Bytes.readU32 frs.bytes (attrOff + offSizeWithHeader))) }

theorem createMcbEntry_cases (h : createMcbEntry start size frs attrOff dest = some (r, frs')) :
    Full frs attrOff dest r frs' ∨ r.wrote = true ∧ r.destOff = dest + (runBytes start size).length ∧
      r.destOff < frs.len ∧ Wrote start size frs attrOff dest r frs' := by
  unfold createMcbEntry at h
  simp only [bind_eq_bind, bind_eq_some_iff] at h
  obtain ⟨attrSize, hattr, recordReal, hreal, recordAlloc, halloc, h⟩ := h
  obtain ⟨-, rfl⟩ := readU32?_eq_some hattr
  obtain ⟨-, rfl⟩ := readU32?_eq_some hreal
  obtain ⟨-, rfl⟩ := readU32?_eq_some halloc
  split_ifs at h with hextend hfull
  · simp only [bind_eq_some_iff] at h
    obtain ⟨frs1, hbump, h⟩ := h
    obtain ⟨-, rfl⟩ := writeU32?_eq_some hbump
    cases h
    exact .inl ⟨hfull, rfl, rfl, rfl, rfl⟩
  · simp only [bind_eq_some_iff] at h
    obtain ⟨frs1, hbump, frs2, hnewReal, frs3, hslide, h⟩ := h
    obtain ⟨-, rfl⟩ := writeU32?_eq_some hbump
    obtain ⟨-, rfl⟩ := writeU32?_eq_some hnewReal
    obtain ⟨hroom, rfl⟩ := frsSlideMakeRoom_spec hslide
    obtain ⟨hdest, hcld, hwrote, hlt, rfl⟩ := writeRun_spec h
    exact .inr ⟨hwrote, hdest, hlt, .grows hextend hroom hcld⟩
  · obtain ⟨hdest, hcld, hwrote, hlt, rfl⟩ := writeRun_spec h
    exact .inr ⟨hwrote, hdest, hlt, .fits hextend hcld⟩

theorem createMcbEntry_spec (h : createMcbEntry start size frs attrOff dest = some (r, frs'))
    (hwrote : r.wrote = true ∨ r.needCld = true) :
    r.destOff = dest + (runBytes start size).length ∧ r.destOff < frs.len ∧
      Wrote start size frs attrOff dest r frs' := by
  rcases createMcbEntry_cases h with hfull | ⟨-, hspec⟩
  · simp [hfull.wrote, hfull.needCld] at hwrote
  · exact hspec

/-- The low word of the attribute's size is eight more. -/
theorem createMcbEntry_full (start size : BitVec 32) (frs : Buffer) (attrOff dest : Nat) (r : CreateMcbResult)
    (frs' : Buffer) (h : createMcbEntry start size frs attrOff dest = some (r, frs')) (hwrote : r.wrote = false) :
    Bytes.readU32 frs'.bytes (attrOff + offSizeWithHeader) =
        bumpSize (Bytes.readU32 frs.bytes (attrOff + offSizeWithHeader)) ∧
      ∀ i, i < attrOff + offSizeWithHeader ∨ attrOff + offSizeWithHeader + 4 ≤ i → frs'.bytes i = frs.bytes i := by
  rcases createMcbEntry_cases h with hfull | ⟨hwrote', -⟩
  · rw [hfull.bytes]
    exact ⟨Bytes.readU32_writeU32_self _ _ _, fun i hi => if_neg (by omega)⟩
  · rw [hwrote] at hwrote'
    cases hwrote'

/-- A record of 32 bytes that is full, with an attribute of no bytes at 8. -/
def fullRecord : Buffer := ⟨32, fun _ => 0⟩

theorem createMcbEntry_full_record : ∃ r frs', createMcbEntry 5 3 fullRecord 8 16 = some (r, frs') ∧ r.wrote = false ∧
    Bytes.readU32 frs'.bytes (8 + offSizeWithHeader) =
      bumpSize (Bytes.readU32 fullRecord.bytes (8 + offSizeWithHeader)) := by
  have hfull : (createMcbEntry 5 3 fullRecord 8 16).map (fun p => p.1.wrote) = some false := by decide +kernel
  obtain ⟨⟨r, frs'⟩, h, hwrote⟩ := map_eq_some_iff.mp hfull
  exact ⟨r, frs', h, hwrote, (createMcbEntry_full 5 3 fullRecord 8 16 r frs' h hwrote).1⟩

/-- The size of the attribute is eight and not zero any more. -/
theorem createMcbEntry_full_grows : ¬ ∀ (start size : BitVec 32) (frs : Buffer) (attrOff dest : Nat)
    (r : CreateMcbResult) (frs' : Buffer), createMcbEntry start size frs attrOff dest = some (r, frs') →
      r.wrote = false → frs'.bytes = frs.bytes := by
  intro hall
  have hfull : (createMcbEntry 5 3 fullRecord 8 16).map (fun p => (p.1.wrote, p.2.bytes 12)) = some (false, 8) := by
    decide +kernel
  obtain ⟨⟨r, frs'⟩, h, hresult⟩ := map_eq_some_iff.mp hfull
  simp only [Prod.mk.injEq] at hresult
  rw [hall 5 3 fullRecord 8 16 r frs' h hresult.1] at hresult
  exact absurd hresult.2 (by decide)

def InFields (attrOff i : Nat) : Prop :=
  attrOff + offSizeWithHeader ≤ i ∧ i < attrOff + offSizeWithHeader + 4 ∨
    offRecordRealSize ≤ i ∧ i < offRecordRealSize + 4

theorem grownBytes_of_lt {bytes : Nat → BitVec 8}
    (hroom : dest + 8 ≤ (Bytes.readU32 bytes offRecordRealSize + 8).toNat) (hi : i < dest)
    (hfields : ¬ InFields attrOff i) : grownBytes bytes attrOff dest i = bytes i := by
  unfold InFields at hfields
  unfold grownBytes slidBytes
  generalize (Bytes.readU32 bytes offRecordRealSize + 8).toNat = newReal at hroom ⊢
  rw [if_neg (by omega)]
  unfold Bytes.writeU32
  rw [if_neg (by omega), if_neg (by omega)]

theorem Wrote.frame (h : Wrote start size frs attrOff dest r frs') (hi : i < dest) (hfields : ¬ InFields attrOff i) :
    frs'.bytes i = frs.bytes i := by
  cases h with
  | fits => exact overlay_of_lt _ _ hi
  | grows hgrows hroom hcld => exact (overlay_of_lt _ _ hi).trans (grownBytes_of_lt hroom hi hfields)

theorem Wrote.stands (h : Wrote start size frs attrOff dest r frs') :
    frs'.len = frs.len ∧ Stands frs'.bytes dest (runBytes start size ++ [0]) := by
  cases h <;> exact ⟨rfl, stands_overlay _ _ _⟩

end Kolibri.Ntfs
