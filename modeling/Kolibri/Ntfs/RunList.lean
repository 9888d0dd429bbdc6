import Kolibri.Ntfs.Record

/-!
# Lists of runs

Each run is written over the terminator of the one before.
-/

namespace Kolibri.Ntfs

open Buffer Option

abbrev Runs := List (BitVec 32 × BitVec 32)

/-- Each call goes on where the one before stopped. `none` if one does not write. -/
def writeRuns (attrOff : Nat) : Runs → Buffer → Nat → Option (Buffer × Nat)
  | [], frs, dest => some (frs, dest)
  | (start, size) :: runs, frs, dest => do
    let (r, frs) ← createMcbEntry start size frs attrOff dest
    if r.wrote then writeRuns attrOff runs frs r.destOff else none

def decodeAt (frs : Buffer) (pos : Nat) (buf : Nat → BitVec 8) : McbDecodeResult × (Nat → BitVec 8) :=
  ntfsDecodeMcbEntry (fun i => frs.bytes (pos + i)) (frs.len - pos) buf

/-- The sizes and starts until the end is reported, and where. -/
def decodeRuns (frs : Buffer) : Nat → Nat → (Nat → BitVec 8) → Option (List (BitVec 64 × BitVec 64) × Nat)
  | 0, _, _ => none
  | fuel + 1, pos, buf =>
    let (r, buf) := decodeAt frs pos buf
    if r.more then do
      let (rest, last) ← decodeRuns frs fuel (pos + r.consumed) buf
      some ((leValue buf 0 8, leValue buf 8 8) :: rest, last)
    else some ([], pos)

def decoded (run : BitVec 32 × BitVec 32) : BitVec 64 × BitVec 64 := (run.2.setWidth 64, run.1.signExtend 64)

theorem decodeAt_end {frs : Buffer} {pos : Nat} (hpos : pos < frs.len) (hzero : frs.bytes pos = 0)
    (buf : Nat → BitVec 8) : decodeAt frs pos buf = (⟨false, 1⟩, buf) := by
  unfold decodeAt ntfsDecodeMcbEntry
  rw [if_neg (by omega)]
  simp [hzero]

theorem stands_at {frs : Buffer} {pos : Nat} {l : List (BitVec 8)} (h : Stands frs.bytes pos l) :
    Stands (fun i => frs.bytes (pos + i)) 0 l :=
  fun i hi => by rw [Nat.zero_add]; exact h i hi

section Lists

variable {attrOff : Nat} {runs : Runs} {frs frs' : Buffer} {dest dest' : Nat}

def FieldsBefore (attrOff dest : Nat) : Prop :=
  attrOff + offSizeWithHeader + 4 ≤ dest ∧ offRecordRealSize + 4 ≤ dest

theorem FieldsBefore.not_inFields (h : FieldsBefore attrOff dest) {i : Nat} (hi : dest ≤ i) : ¬ InFields attrOff i := by
  unfold FieldsBefore at h
  unfold InFields
  omega

theorem writeRuns_cons {start size : BitVec 32} (h : writeRuns attrOff ((start, size) :: runs) frs dest = some (frs', dest')) :
    ∃ r frs1, createMcbEntry start size frs attrOff dest = some (r, frs1) ∧ r.wrote = true ∧
      writeRuns attrOff runs frs1 r.destOff = some (frs', dest') := by
  rw [writeRuns, bind_eq_bind, bind_eq_some_iff] at h
  obtain ⟨⟨r, frs1⟩, hcreate, h⟩ := h
  dsimp only at h
  split_ifs at h with hwrote
  exact ⟨r, frs1, hcreate, hwrote, h⟩

theorem writeRuns_len (h : writeRuns attrOff runs frs dest = some (frs', dest')) : frs'.len = frs.len := by
  induction runs generalizing frs dest with
  | nil =>
    cases h
    rfl
  | cons run runs ih =>
    obtain ⟨r, frs1, hcreate, hwrote, hrest⟩ := writeRuns_cons h
    obtain ⟨-, -, hrun⟩ := createMcbEntry_spec hcreate (.inl hwrote)
    exact (ih hrest).trans hrun.stands.1

theorem writeRuns_frame (h : writeRuns attrOff runs frs dest = some (frs', dest')) {i : Nat} (hi : i < dest)
    (hout : ¬ InFields attrOff i) : frs'.bytes i = frs.bytes i := by
  induction runs generalizing frs dest with
  | nil =>
    cases h
    rfl
  | cons run runs ih =>
    obtain ⟨r, frs1, hcreate, hwrote, hrest⟩ := writeRuns_cons h
    obtain ⟨hdest, -, hrun⟩ := createMcbEntry_spec hcreate (.inl hwrote)
    exact (ih hrest (by omega)).trans (hrun.frame hi hout)

theorem decodeRuns_writeRuns (hfields : FieldsBefore attrOff dest)
    (hend : runs = [] → dest < frs.len ∧ frs.bytes dest = 0)
    (h : writeRuns attrOff runs frs dest = some (frs', dest')) (hsizes : ∀ run ∈ runs, run.2.toNat < 2 ^ 31)
    (buf : Nat → BitVec 8) :
    decodeRuns frs' (runs.length + 1) dest buf = some (runs.map decoded, dest') ∧
      dest' < frs'.len ∧ frs'.bytes dest' = 0 := by
  induction runs generalizing frs dest buf with
  | nil =>
    cases h
    obtain ⟨hlt, hzero⟩ := hend rfl
    refine ⟨?_, hlt, hzero⟩
    rw [List.length_nil, decodeRuns, decodeAt_end hlt hzero]
    rfl
  | cons run runs ih =>
    obtain ⟨start, size⟩ := run
    obtain ⟨r, frs1, hcreate, hwrote, hrest⟩ := writeRuns_cons h
    obtain ⟨hdest, hlt, hrun⟩ := createMcbEntry_spec hcreate (.inl hwrote)
    obtain ⟨hlen, hstands⟩ := hrun.stands
    have hfields' : FieldsBefore attrOff r.destOff := by
      unfold FieldsBefore at *
      omega
    have hzero : frs1.bytes r.destOff = 0 := by
      have hlast := hstands.append_right 0 (by simp)
      rwa [← hdest] at hlast
    -- The later runs leave this one.
    have hkeeps : Stands frs'.bytes dest (runBytes start size) := by
      refine hstands.append_left.congr fun i hi => ?_
      exact writeRuns_frame hrest (by omega) (hfields.not_inFields (by omega))
    have hlen' := writeRuns_len hrest
    obtain ⟨buf', hdecode, hsize, hstart⟩ := @ntfsDecodeMcbEntry_of_lt start size _ (frs'.len - dest) (stands_at hkeeps)
      (by omega) (hsizes _ List.mem_cons_self) buf
    obtain ⟨hrestruns, hend'⟩ := @ih frs1 r.destOff hfields' (fun _ => ⟨by omega, hzero⟩) hrest
      (fun run hrun => hsizes run (List.mem_cons_of_mem _ hrun)) buf'
    refine ⟨?_, hend'⟩
    rw [List.length_cons, decodeRuns, decodeAt, hdecode]
    simp only [if_true, ← hdest, hrestruns, bind_eq_bind, bind_some, hsize, hstart]
    rfl

end Lists

/-- Runs are read back if their sizes are below `2 ^ 31`, and a single run only then. -/
theorem runs_decode (attrOff : Nat) :
    (∀ runs frs frs' dest dest', FieldsBefore attrOff dest → runs ≠ [] →
      writeRuns attrOff runs frs dest = some (frs', dest') → (∀ run ∈ runs, run.2.toNat < 2 ^ 31) →
        ∀ buf, decodeRuns frs' (runs.length + 1) dest buf = some (runs.map decoded, dest') ∧
          dest' < frs'.len ∧ frs'.bytes dest' = 0) ∧
    (∀ start size frs frs' dest r, createMcbEntry start size frs attrOff dest = some (r, frs') → r.wrote = true →
      ∀ buf, (decodeAt frs' dest buf).1.more = true →
        (leValue (decodeAt frs' dest buf).2 0 8, leValue (decodeAt frs' dest buf).2 8 8) = decoded (start, size) →
          size.toNat < 2 ^ 31) := by
  constructor
  · intro runs frs frs' dest dest' hfields hruns h hsizes buf
    exact decodeRuns_writeRuns hfields (fun hnil => absurd hnil hruns) h hsizes buf
  · intro start size frs frs' dest r hcreate hwrote buf hmore hpair
    obtain ⟨hdest, hlt, hrun⟩ := createMcbEntry_spec hcreate (.inl hwrote)
    obtain ⟨hlen, hstands⟩ := hrun.stands
    exact lt_of_ntfsDecodeMcbEntry (stands_at hstands.append_left) (by omega) buf hmore (congrArg Prod.fst hpair)

def smallRecord : Buffer where
  len := 0x60
  bytes i :=
    if i = offRecordRealSize then 0x48
    else if i = offRecordAllocatedSize then 0x60
    else if i = 0x20 + offSizeWithHeader then 0x18
    else 0

theorem runs_decode_three :
    ∃ frs' dest', writeRuns 0x20 [(5, 3), (0xFFFFFFFE, 1000), (0x12345678, 0x7FFFFFFF)] smallRecord 0x30 =
      some (frs', dest') ∧ decodeRuns frs' 4 0x30 (fun _ => 0) =
        some ([(5, 3), (0xFFFFFFFE, 1000), (0x12345678, 0x7FFFFFFF)].map decoded, dest') := by
  have hwrites : (writeRuns 0x20 [(5, 3), (0xFFFFFFFE, 1000), (0x12345678, 0x7FFFFFFF)] smallRecord 0x30).isSome := by
    decide +kernel
  obtain ⟨⟨frs', dest'⟩, h⟩ := isSome_iff_exists.mp hwrites
  exact ⟨frs', dest', h, ((runs_decode 0x20).1 _ _ _ _ _ (by unfold FieldsBefore; decide) (by simp) h (by simp) _).1⟩

/-- The start of the first run lies in the size of the attribute. -/
theorem runs_decode_overlap :
    ¬ ∀ (attrOff : Nat) (runs : Runs) (frs frs' : Buffer) (dest dest' : Nat), runs ≠ [] →
      writeRuns attrOff runs frs dest = some (frs', dest') → (∀ run ∈ runs, run.2.toNat < 2 ^ 31) →
        ∀ buf, decodeRuns frs' (runs.length + 1) dest buf = some (runs.map decoded, dest') := by
  intro h
  have hdecodes : (writeRuns 0x20 [(1, 1), (1, 1)] smallRecord 0x22).map
      (fun p => (decodeRuns p.1 3 0x22 (fun _ => 0)).map Prod.fst) = some (some [(1, 9), (1, 1)]) := by decide +kernel
  obtain ⟨⟨frs', dest'⟩, hwrites, hruns⟩ := map_eq_some_iff.mp hdecodes
  have hread := h 0x20 [(1, 1), (1, 1)] smallRecord frs' 0x22 dest' (by simp) hwrites (by simp) (fun _ => 0)
  rw [List.length_cons, List.length_singleton] at hread
  have hne : [(1, 1), (1, 1)].map decoded ≠ [(1, 9), (1, 1)] := by decide +kernel
  rw [hread, map_some, Option.some.injEq] at hruns
  exact hne hruns

end Kolibri.Ntfs
