import Kolibri.KolibriImg.Others

/-! # Putting a file and looking it up

`cmd_put` takes the name as one 8.3 name, `find_file_path` splits it at slashes first.
-/

namespace Kolibri.KolibriImg

open Outcome Bytes List

namespace Image

variable {img img1 img2 img3 img' : Image} {o t start : Nat} {e : DirEntry} {fat want bytes : List (BitVec 8)}

/-! ## The entry that is written -/

def nameAt (img : Image) (o : Nat) : List (BitVec 8) := (List.range 11).map fun i => img.data.bytes (o + i)

theorem entryAt_visible (h0 : img.data.bytes o ≠ 0x00) (hE5 : img.data.bytes o ≠ 0xE5) :
    img.entryAt o = some {
      rawName := img.nameAt o
      attr := img.data.bytes (o + 11)
      startCluster := (readU16 img.data.bytes (o + 26)).toNat
      size := (readU32 img.data.bytes (o + 28)).toNat } := by
  unfold entryAt DirEntry.parse
  rw [if_neg (by simpa using h0), if_neg (by simpa using hE5)]
  rfl

theorem entryAt_congr (h : ∀ i < 32, img'.data.bytes (o + i) = img.data.bytes (o + i)) :
    img'.entryAt o = img.entryAt o := by
  unfold entryAt DirEntry.parse readU16 readU32
  have hname : ((List.range 11).map fun i => img'.data.bytes (o + i)) = (List.range 11).map fun i => img.data.bytes (o + i) := by
    apply map_congr_left
    intro i hi
    have := mem_range.mp hi
    exact h i (by omega)
  simp only [hname, h 0 (by omega), h 11 (by omega), h 26 (by omega), h (26 + 1) (by omega), h 28 (by omega),
    h (28 + 1) (by omega), h (28 + 2) (by omega), h (28 + 3) (by omega)]

theorem entryAt_named (hentry : img.entryAt o = some e) (hnamed : ¬ e.isDeleted) :
    img.data.bytes o ≠ 0x00 ∧ img.data.bytes o ≠ 0xE5 := by
  unfold entryAt DirEntry.parse at hentry
  constructor
  · intro h
    rw [if_pos (by simpa using h)] at hentry
    cases hentry
  · intro h
    rw [if_neg (by simp [h]), if_pos (by simpa using h)] at hentry
    cases hentry
    simp [DirEntry.isDeleted] at hnamed

variable {size base n : Nat} {name : List Char}

theorem updateDirent_fields (h : img.updateDirent t start size = .ok img') :
    (∀ i < 12, img'.data.bytes (t + i) = img.data.bytes (t + i)) ∧
      readU16 img'.data.bytes (t + 26) = BitVec.ofNat 16 start ∧
      readU32 img'.data.bytes (t + 28) = BitVec.ofNat 32 size := by
  obtain ⟨-, rfl⟩ := updateDirent_eq_ok h
  refine ⟨fun i hi => ?_, ?_, ?_⟩
  · dsimp only [poke]
    rw [Buffer.overlay_of_lt _ _ (by omega), Buffer.overlay_of_lt _ _ (by omega), Buffer.overlay_of_lt _ _ (by omega)]
  · refine Buffer.Stands.readU16 ((Buffer.stands_overlay img.data.bytes (t + 26) _).congr fun i hi => ?_)
    rw [Buffer.length_leBytes] at hi
    dsimp only [poke]
    rw [Buffer.overlay_of_lt _ _ (by omega), Buffer.overlay_of_ge _ (by simp; omega)]
  · exact Buffer.Stands.readU32 (Buffer.stands_overlay _ _ _)

structure Stored (img : Image) (t : Nat) (fat : List (BitVec 8)) (start size : Nat) : Prop where
  name : img.nameAt t = fat
  plain : img.data.bytes (t + 11) ≠ 0x0F ∧
    ¬ (img.data.bytes (t + 11) &&& 0x08 ≠ 0 ∧ img.data.bytes (t + 11) &&& 0x10 = 0)
  start : readU16 img.data.bytes (t + 26) = BitVec.ofNat 16 start
  size : readU32 img.data.bytes (t + 28) = BitVec.ofNat 32 size

theorem nameAt_congr (h : ∀ i < 12, img'.data.bytes (t + i) = img.data.bytes (t + i)) : img'.nameAt t = img.nameAt t := by
  apply map_congr_left
  intro i hi
  have := mem_range.mp hi
  exact h i (by omega)

theorem Stored.congr (h : Stored img t fat start size) (heq : ∀ i, t ≤ i → img'.data.bytes i = img.data.bytes i) :
    Stored img' t fat start size where
  name := by
    rw [nameAt_congr fun i _ => heq (t + i) (by omega)]
    exact h.name
  plain := by
    rw [heq (t + 11) (by omega)]
    exact h.plain
  start := by
    rw [← h.start, readU16, readU16, heq _ (by omega), heq _ (by omega)]
  size := by
    rw [← h.size, readU32, readU32, heq _ (by omega), heq _ (by omega), heq _ (by omega), heq _ (by omega)]

theorem stored_update (hentry : img.entryAt t = some e) (hwanted : wanted fat e)
    (h : img.updateDirent t start size = .ok img') : Stored img' t fat start size := by
  obtain ⟨hkeep, hstart, hsize⟩ := updateDirent_fields h
  simp only [wanted, Bool.and_eq_true, Bool.not_eq_true', decide_eq_true_eq] at hwanted
  obtain ⟨⟨⟨hdel, hlfn⟩, hlabel⟩, hname⟩ := hwanted
  obtain ⟨h0, hE5⟩ := entryAt_named hentry (by simp [hdel])
  rw [entryAt_visible h0 hE5] at hentry
  cases hentry
  refine ⟨?_, ?_, hstart, hsize⟩
  · rw [nameAt_congr hkeep]
    exact hname
  · rw [hkeep 11 (by omega)]
    exact ⟨by simpa [DirEntry.isLfn] using hlfn, by simpa [DirEntry.isVolumeLabel] using hlabel⟩

theorem stored_create (h : img.writeNewRootDirent t fat start size = .ok img') : Stored img' t fat start size := by
  obtain ⟨hlen, h⟩ := writeNewRootDirent_eq_ok h
  obtain ⟨hkeep, hstart, hsize⟩ := updateDirent_fields h
  refine ⟨?_, ?_, hstart, hsize⟩
  · rw [nameAt_congr hkeep]
    apply ext_getElem
    · simp [nameAt, hlen]
    intro i _ hi
    simp only [nameAt, getElem_map, getElem_range, poke]
    rw [Buffer.overlay_of_lt _ _ (by omega), Buffer.overlay_of_lt _ _ (by omega), Buffer.stands_overlay _ _ _ i hi]
  have hattr : img'.data.bytes (t + 11) = 0x20 := by
    rw [hkeep 11 (by omega)]
    dsimp only [poke]
    rw [Buffer.overlay_of_lt _ _ (by omega)]
    exact Buffer.stands_overlay _ (t + 11) [0x20] 0 (by simp)
  rw [hattr]
  decide

theorem head?_nameAt (img : Image) (o : Nat) : (img.nameAt o).head? = some (img.data.bytes o) := rfl

theorem Stored.entryAt (h : Stored img t fat start size) (h0 : fat.head? ≠ some 0x00) (hE5 : fat.head? ≠ some 0xE5)
    (hstart : start < 2 ^ 16) (hsize : size < 2 ^ 32) :
    ∃ e, img.entryAt t = some e ∧ wanted fat e ∧ e.startCluster = start ∧ e.size = size := by
  rw [← h.name, head?_nameAt] at h0 hE5
  refine ⟨_, entryAt_visible (fun hz => h0 (by rw [hz])) (fun hz => hE5 (by rw [hz])), ?_, ?_, ?_⟩
  · have hdel : (img.nameAt t).head? ≠ some 0xE5 := by rwa [head?_nameAt]
    simp only [wanted, DirEntry.isDeleted, DirEntry.isLfn, DirEntry.isVolumeLabel, Bool.and_eq_true,
      Bool.not_eq_true', decide_eq_true_eq, decide_eq_false_iff_not]
    exact ⟨⟨⟨hdel, h.plain.1⟩, h.plain.2⟩, h.name⟩
  · dsimp only
    rw [h.start, BitVec.toNat_ofNat, Nat.mod_eq_of_lt hstart]
  · dsimp only
    rw [h.size, BitVec.toNat_ofNat, Nat.mod_eq_of_lt hsize]

/-! ## The search -/

def Comes (img : Image) (want : List (BitVec 8)) (n base t : Nat) : Prop :=
  ∃ k < n, t = base + 32 * k ∧ ∀ j < k, ∃ e, img.entryAt (base + 32 * j) = some e ∧ ¬ wanted want e

theorem comes_here (img : Image) (want : List (BitVec 8)) (n base : Nat) : img.Comes want (n + 1) base base :=
  ⟨0, by omega, by omega, fun j hj => by omega⟩

theorem Comes.step {n base : Nat} (h : img.Comes want n (base + 32) t) (hentry : img.entryAt base = some e)
    (hother : ¬ wanted want e) : img.Comes want (n + 1) base t := by
  obtain ⟨k, hk, rfl, hbefore⟩ := h
  refine ⟨k + 1, by omega, by omega, fun j hj => ?_⟩
  cases j with
  | zero => exact ⟨e, hentry, hother⟩
  | succ j =>
    obtain ⟨e', he', hother'⟩ := hbefore j (by omega)
    exact ⟨e', by rwa [show base + 32 * (j + 1) = base + 32 + 32 * j by omega], hother'⟩

theorem Comes.congr (h : img.Comes want n base t) (heq : ∀ o ∈ slots base n, o ≠ t → img'.entryAt o = img.entryAt o) :
    img'.Comes want n base t := by
  obtain ⟨k, hk, rfl, hbefore⟩ := h
  refine ⟨k, hk, rfl, fun j hj => ?_⟩
  obtain ⟨e, he, hother⟩ := hbefore j hj
  refine ⟨e, ?_, hother⟩
  rw [heq _ (mem_slots.mpr ⟨j, by omega, rfl⟩) (by omega), he]

theorem scanEntries_comes (h : img.Comes want n base t) (hentry : img.entryAt t = some e) (hwanted : wanted want e)
    (hlen : t + 32 ≤ img.data.len) : img.scanEntries want n base = .ok (.found t e) := by
  induction n generalizing base with
  | zero =>
    obtain ⟨k, hk, -⟩ := h
    omega
  | succ n ih =>
    obtain ⟨k, hk, rfl, hbefore⟩ := h
    rw [scanEntries, within_of_pos (by omega), ok_bind]
    cases k with
    | zero =>
      unfold entryAt at hentry
      rw [Nat.mul_zero, Nat.add_zero] at hentry ⊢
      rw [hentry]
      dsimp only
      rw [if_pos hwanted, Nat.add_zero]
    | succ k =>
      obtain ⟨e0, he0, hother⟩ := hbefore 0 (by omega)
      unfold entryAt at he0
      rw [Nat.mul_zero, Nat.add_zero] at he0
      rw [he0]
      dsimp only
      rw [if_neg hother]
      refine ih ⟨k, by omega, by omega, fun j hj => ?_⟩
      rw [show base + 32 + 32 * j = base + 32 * (j + 1) by omega]
      exact hbefore (j + 1) (by omega)

theorem comes_of_found (h : img.scanEntries want n base = .ok (.found t e)) : img.Comes want n base t := by
  induction n generalizing base with
  | zero => cases h
  | succ n ih =>
    rw [scanEntries, bind_eq_ok] at h
    obtain ⟨_, -, h⟩ := h
    cases hparse : img.entryAt base with
    | none =>
      unfold entryAt at hparse
      rw [hparse] at h
      cases h
    | some e0 =>
      have hentry := hparse
      unfold entryAt at hparse
      rw [hparse] at h
      dsimp only at h
      split at h
      · cases h
        exact comes_here img want n _
      · rename_i hother
        exact (ih h).step hentry hother

theorem comes_of_free {scan : Scan} (hscan : img.scanEntries want n base = .ok scan)
    (hnone : ∀ o e, scan ≠ .found o e) (hfree : img.freeDirentLoop n base = .ok t) : img.Comes want n base t := by
  induction n generalizing base with
  | zero => exact absurd hfree fail_ne_ok
  | succ n ih =>
    rw [freeDirentLoop, bind_eq_ok] at hfree
    obtain ⟨_, -, hfree⟩ := hfree
    dsimp only at hfree
    split at hfree
    · cases hfree
      exact comes_here img want n _
    rename_i hused
    obtain ⟨h0, hE5⟩ := not_or.mp hused
    have hentry := entryAt_visible h0 hE5
    rw [scanEntries, bind_eq_ok] at hscan
    obtain ⟨_, -, hscan⟩ := hscan
    have hparse := hentry
    unfold entryAt at hparse
    rw [hparse] at hscan
    dsimp only at hscan
    split at hscan
    · cases hscan
      exact absurd rfl (hnone _ _)
    · rename_i hother
      exact (ih hscan hfree).step hentry hother

/-! ## Reading it back -/

theorem writeBytes_readFile (hfats : img1.bpb.fatCount ≠ 0) (hsized : img1.Sized)
    (hwrite : img1.writeBytes bytes = .ok (start, img2)) (hedits : Edits img2 img' [] [] t)
    (ht : t + 32 ≤ img1.bpb.dataOffset) :
    start < 2 ^ 16 ∧ ∀ e : DirEntry, e.startCluster = start → e.size = bytes.length → img'.readFile e = .ok bytes := by
  unfold writeBytes at hwrite
  split at hwrite
  · rename_i hnil
    cases hwrite
    refine ⟨by decide, fun e hstart hsize => ?_⟩
    rw [readFile, readClusters, hstart, if_pos (by decide), ok_bind, hnil, take_nil]
  rename_i hne
  obtain ⟨hfirst, rest, hwritten⟩ := allocateAndWrite_spec hfats hsized hne hwrite
  have hbpb := hwritten.touches.bpb
  refine ⟨hfirst.lt_eocMin.trans img1.bpb.fatKind.eocMin_lt, fun e hstart hsize => ?_⟩
  subst hstart
  obtain ⟨last, -, hchain⟩ := hwritten.leads
  obtain ⟨out, hout, htake⟩ := hwritten.readClusters
  rw [readFile_congr hedits.bpb hedits.len hchain fun c hc => ?_, readFile, hsize, hout, ok_bind, htake]
  have hin : img2.InFat c := hwritten.touches.inFat.mpr (hwritten.inFat c hc)
  refine ⟨hin, hedits.entry c hin (by simp), slice_congr fun i hlo hhi => ?_⟩
  have hdata : img2.bpb.dataOffset ≤ i := InCluster.dataOffset_le (c := c) ⟨hlo, hhi⟩
  have hroot : img1.bpb.rootOffset ≤ img1.bpb.dataOffset := Nat.le_add_right _ _
  rw [hbpb] at hdata
  exact hedits.bytes i (by rw [hbpb]; omega) (by omega) (by simp)

theorem mirrorFats_bytes (h : img.mirrorFats = .ok img') {i : Nat} (hi : img.bpb.rootOffset ≤ i) :
    img'.data.bytes i = img.data.bytes i :=
  ((mirrorFats_spec h).1 (i + 1)).bytes i hi (by omega) (by simp)

theorem length_readFile {out : List (BitVec 8)} (h : img.readFile e = .ok out) : out.length ≤ e.size := by
  rw [readFile, bind_eq_ok] at h
  obtain ⟨data, -, h⟩ := h
  cases h
  exact length_take_le _ _

/-! ## The whole command -/

def putOffset (img : Image) (name : List Char) : Outcome Nat := do
  let fatName ← toFat83 name
  match ← img.findRootFileOffset fatName with
  | some (offset, _) => .ok offset
  | none => img.findFreeRootDirent

structure PutAt (img' : Image) (t : Nat) (fat bytes : List (BitVec 8)) (start : Nat) : Prop where
  slot : t ∈ img'.rootSlots
  len : t + 32 ≤ img'.data.len
  comes : img'.Comes fat (img'.bpb.rootSize / 32) img'.bpb.rootOffset t
  stored : Stored img' t fat start (bytes.length % 2 ^ 32)
  start_lt : start < 2 ^ 16
  read : ∀ e : DirEntry, e.startCluster = start → e.size = bytes.length → img'.readFile e = .ok bytes

theorem putAt_of_writes {freed new : List Nat} {old : Nat} (heff : Effect img img' old t freed new)
    (ht : t ∈ img.rootSlots) (hcomes : img.Comes fat (img.bpb.rootSize / 32) img.bpb.rootOffset t)
    (hbpb : img1.bpb = img.bpb) (hfats : img1.bpb.fatCount ≠ 0) (hsized : img1.Sized)
    (hwrite : img1.writeBytes bytes = .ok (start, img2)) (hbpb2 : img2.bpb = img1.bpb) (hpoke : Pokes img2 img3 t)
    (hlen : t + 32 ≤ img3.data.len) (hstored : Stored img3 t fat start (bytes.length % 2 ^ 32))
    (hmirror : img3.mirrorFats = .ok img') : PutAt img' t fat bytes start := by
  obtain ⟨hlo, hhi, -⟩ := slot_root ht
  have hmirrored := (mirrorFats_spec hmirror).1 t
  have hbpb3 : img3.bpb = img.bpb := hpoke.bpb.trans (hbpb2.trans hbpb)
  have hslots : img'.rootSlots = img.rootSlots := by
    unfold rootSlots
    rw [heff.edits.bpb]
  have hedits : Edits img2 img' [] [] t :=
    (hpoke.edits (by rwa [hbpb2]) (by rw [hbpb2, hbpb]; exact hlo)).trans hmirrored
  obtain ⟨hstart, hread⟩ := writeBytes_readFile hfats hsized hwrite hedits (by rw [hbpb]; exact hhi)
  refine ⟨by rwa [hslots], by rwa [hmirrored.len], ?_, ?_, hstart, hread⟩
  · rw [heff.edits.bpb]
    refine hcomes.congr fun o ho hne => ?_
    -- parsing an entry reads no byte behind its 32
    have hbytes : ∀ i < 32, img'.data.bytes (o + i) = img.data.bytes (o + i) := fun i hi => heff.bytes_root ht ho hne hi
    exact entryAt_congr hbytes
  · exact hstored.congr fun i hi => mirrorFats_bytes hmirror (by rw [hbpb3]; omega)

theorem cmdPut_putAt (hfats : img.bpb.fatCount ≠ 0) (hsized : img.Sized) (h : img.cmdPut name bytes = .ok img') :
    ∃ fat t start, toFat83 name = .ok fat ∧ img.putOffset name = .ok t ∧ PutAt img' t fat bytes start := by
  rw [cmdPut, bind_eq_ok] at h
  obtain ⟨fat, hfat, h⟩ := h
  rw [bind_eq_ok] at h
  obtain ⟨found, hfind, h⟩ := h
  have hfound := hfind
  rw [findRootFileOffset, bind_eq_ok] at hfound
  obtain ⟨scan, hscan, hfound⟩ := hfound
  cases found with
  | some p =>
    obtain ⟨t, e⟩ := p
    rw [bind_eq_ok] at h
    obtain ⟨_, -, h⟩ := h
    obtain ⟨-, hslot, -⟩ := findRootFileOffset_found hfind
    have hscan : img.scanEntries fat (img.bpb.rootSize / 32) img.bpb.rootOffset = .ok (.found t e) := by
      cases scan <;> cases hfound
      exact hscan
    obtain ⟨freed, new, heff⟩ := replaceAt_effect hfats hsized (slot_root hslot).1 h
    rw [replaceAt, bind_eq_ok] at h
    obtain ⟨img1, hfree, h⟩ := h
    rw [bind_eq_ok] at h
    obtain ⟨⟨start, img2⟩, hwrite, h⟩ := h
    rw [bind_eq_ok] at h
    obtain ⟨img3, hupdate, hmirror⟩ := h
    obtain ⟨_, hfreed, -⟩ := freeChain_touches hfree
    obtain ⟨_, hwritten, -⟩ := writeBytes_touches (by rwa [hfreed.bpb]) (hfreed.sized hsized) hwrite
    have hpoke := updateDirent_pokes hupdate
    obtain ⟨-, hentry, hwanted⟩ := scanEntries_found hscan
    -- the entry is still there when it is written
    have hstill : img2.entryAt t = some e := by
      rw [← hentry]
      refine entryAt_congr fun i hi => ?_
      obtain ⟨hlo, hhi, -⟩ := slot_root hslot
      have hout : ¬ img.bpb.InFirstFat (t + i) := fun hin => by
        have := hin.lt_rootOffset hfats
        omega
      rw [hwritten.bytes _ (by rwa [hfreed.bpb]) fun c _ hin => ?_, hfreed.bytes _ hout (by simp)]
      have := hin.dataOffset_le
      rw [hfreed.bpb] at this
      omega
    refine ⟨fat, t, start, hfat, ?_, ?_⟩
    · rw [putOffset, hfat, ok_bind, hfind, ok_bind]
    · exact putAt_of_writes heff hslot (comes_of_found hscan) hfreed.bpb (by rwa [hfreed.bpb]) (hfreed.sized hsized)
        hwrite hwritten.bpb hpoke (by rw [hpoke.len]; exact (updateDirent_eq_ok hupdate).1)
        (stored_update hstill hwanted hupdate) hmirror
  | none =>
    rw [bind_eq_ok] at h
    obtain ⟨t, hslot, h⟩ := h
    obtain ⟨hmem, -⟩ := freeDirentLoop_spec hslot
    have hnone : ∀ o e, scan ≠ .found o e := by
      rintro o e rfl
      cases hfound
    obtain ⟨new, heff⟩ := createAt_effect hfats hsized (slot_root hmem).1 h
    rw [createAt, bind_eq_ok] at h
    obtain ⟨⟨start, img2⟩, hwrite, h⟩ := h
    rw [bind_eq_ok] at h
    obtain ⟨img3, hentry, hmirror⟩ := h
    obtain ⟨_, hwritten, -⟩ := writeBytes_touches hfats hsized hwrite
    have hpoke := writeNewRootDirent_pokes hentry
    refine ⟨fat, t, start, hfat, ?_, ?_⟩
    · rw [putOffset, hfat, ok_bind, hfind, ok_bind]
      exact hslot
    · exact putAt_of_writes heff hmem (comes_of_free hscan hnone hslot) rfl hfats hsized hwrite hwritten.bpb hpoke
        (by rw [hpoke.len]; exact (updateDirent_eq_ok (writeNewRootDirent_eq_ok hentry).2).1) (stored_create hentry) hmirror

/-! ## Looking it up -/

/-- The lookup takes the name as the put did, the first byte shows the entry, and its length fits. -/
def Kept (name : List Char) (bytes : List (BitVec 8)) : Prop :=
  ∃ component fat, components name = [component] ∧ toFat83 component = .ok fat ∧ toFat83 name = .ok fat ∧
    fat.head? ≠ some 0x00 ∧ fat.head? ≠ some 0xE5 ∧ bytes.length < 2 ^ 32

theorem findLoop_found {fuel c : Nat} (h : img.findLoop want fuel c = .ok (some (o, e))) :
    img.bpb.dataOffset ≤ o := by
  induction fuel generalizing c with
  | zero => exact absurd h fail_ne_ok
  | succ fuel ih =>
    rw [findLoop] at h
    split at h
    · rw [bind_eq_ok] at h
      obtain ⟨base, hbase, h⟩ := h
      obtain ⟨-, rfl⟩ := clusterOffset_eq_ok.mp hbase
      rw [bind_eq_ok] at h
      obtain ⟨scan, hscan, h⟩ := h
      cases scan with
      | found o' e' =>
        cases h
        have hslot := takeWhile_subset _ (scanEntries_found hscan).1
        exact (slot_cluster (i := 0) hslot (by omega)).dataOffset_le
      | ended => cases h
      | past =>
        rw [bind_eq_ok] at h
        obtain ⟨next, -, h⟩ := h
        exact ih h
    · cases h

theorem PutAt.find {component : List Char} (h : PutAt img' t fat bytes start) (hname : components name = [component])
    (hfat : toFat83 component = .ok fat) (h0 : fat.head? ≠ some 0x00) (hE5 : fat.head? ≠ some 0xE5)
    (hsize : bytes.length < 2 ^ 32) :
    ∃ e, img'.findFilePath name = .ok (some (t, e)) ∧ img'.readFile e = .ok bytes := by
  have hlen : bytes.length % 2 ^ 32 = bytes.length := Nat.mod_eq_of_lt hsize
  obtain ⟨e, hentry, hwanted, hstart, hsz⟩ := h.stored.entryAt h0 hE5 h.start_lt (by rwa [hlen])
  refine ⟨e, ?_, h.read e hstart (by rw [hsz, hlen])⟩
  rw [findFilePath, hname]
  dsimp only
  rw [hfat, ok_bind, findRootFileOffset, scanEntries_comes h.comes hentry hwanted h.len, ok_bind]

theorem PutAt.kept (h : PutAt img' t fat bytes start) (hput : toFat83 name = .ok fat)
    (hfind : img'.findFilePath name = .ok (some (t, e))) (hread : img'.readFile e = .ok bytes) : Kept name bytes := by
  unfold findFilePath at hfind
  split at hfind
  · exact absurd hfind fail_ne_ok
  · rename_i component hname
    rw [bind_eq_ok] at hfind
    obtain ⟨fat', hfat', hfind⟩ := hfind
    obtain ⟨hreach, -, hraw⟩ := findRootFileOffset_found hfind
    have hnamed := hreach.isNamed
    simp only [DirEntry.isNamed, Bool.and_eq_true, Bool.not_eq_true'] at hnamed
    obtain ⟨h0, hE5⟩ := entryAt_named hreach.entryAt (by simp [hnamed.1.1])
    have hentry := hreach.entryAt
    rw [entryAt_visible h0 hE5] at hentry
    cases hentry
    have hsame : fat' = fat := hraw.symm.trans h.stored.name
    have hlen := length_readFile hread
    dsimp only at hlen
    refine ⟨component, fat, hname, hsame ▸ hfat', hput, ?_, ?_, by omega⟩
    · rw [← h.stored.name, head?_nameAt]
      exact fun heq => h0 (Option.some.inj heq)
    · rw [← h.stored.name, head?_nameAt]
      exact fun heq => hE5 (Option.some.inj heq)
  · rw [bind_eq_ok] at hfind
    obtain ⟨entries, -, hfind⟩ := hfind
    rw [bind_eq_ok] at hfind
    obtain ⟨walked, -, hfind⟩ := hfind
    cases walked with
    | none => cases hfind
    | some parentStart =>
      rw [bind_eq_ok] at hfind
      obtain ⟨fileFat, -, hfind⟩ := hfind
      cases parentStart with
      | none => exact absurd hfind fail_ne_ok
      | some start =>
        -- an entry in a cluster is not the one in the root directory
        have := findLoop_found hfind
        have := (slot_root h.slot).2.1
        omega

/-- A put file is found again exactly when the lookup takes its name as the put did, unless another entry comes first. -/
theorem findFilePath_cmdPut_iff (hsized : img.Sized) (hfats : img.bpb.fatCount ≠ 0) {name : List Char}
    (h : img.cmdPut name bytes = .ok img') : ∃ t, img.putOffset name = .ok t ∧
      ((∃ o e, img'.findFilePath name = .ok (some (o, e)) ∧ img'.readFile e = .ok bytes) ↔ Kept name bytes ∨
          ∃ o e, o ≠ t ∧ img'.findFilePath name = .ok (some (o, e)) ∧ img'.readFile e = .ok bytes) := by
  obtain ⟨fat, t, start, hfat, hoffset, hput⟩ := cmdPut_putAt hfats hsized h
  refine ⟨t, hoffset, ?_, ?_⟩
  · rintro ⟨o, e, hfind, hread⟩
    by_cases ho : o = t
    · subst ho
      exact .inl (hput.kept hfat hfind hread)
    · exact .inr ⟨o, e, ho, hfind, hread⟩
  rintro (⟨component, fat', hname, hcomponent, hname', h0, hE5, hsize⟩ | ⟨o, e, -, hfind, hread⟩)
  · rw [hfat] at hname'
    cases hname'
    obtain ⟨e, hfind, hread⟩ := hput.find hname hcomponent h0 hE5 hsize
    exact ⟨t, e, hfind, hread⟩
  · exact ⟨o, e, hfind, hread⟩

open Command

theorem findFilePath_cmdPut_sample : ∃ img', sampleImage.cmdPut ['b'] [7] = .ok img' ∧
    ∃ o e, img'.findFilePath ['b'] = .ok (some (o, e)) ∧ img'.readFile e = .ok [7] := by
  have hok : (sampleImage.cmdPut ['b'] [7]).toOption.isSome := by decide +kernel
  cases h : sampleImage.cmdPut ['b'] [7] with
  | error e =>
    rw [h] at hok
    cases hok
  | ok img' =>
    obtain ⟨t, -, hiff⟩ := findFilePath_cmdPut_iff wellFormed_sampleImage.sized wellFormed_sampleImage.fats h
    exact ⟨img', rfl, hiff.mpr (.inl ⟨['b'], 0x42 :: List.replicate 10 0x20, rfl, rfl, rfl, by decide, by decide,
      by decide⟩)⟩

/-- The put stores the slash in the name, and the lookup takes it for a directory. -/
theorem findFilePath_cmdPut_slash :
    ¬ ∀ (img img' : Image) (name : List Char) (bytes : List (BitVec 8)), img.WellFormed →
      img.cmdPut name bytes = .ok img' →
      ∃ o e, img'.findFilePath name = .ok (some (o, e)) ∧ img'.readFile e = .ok bytes := by
  intro hall
  have hnone : (sampleImage.cmdPut ['C', '/', 'D'] [7] >>= fun img' =>
      img'.findFilePath ['C', '/', 'D']).toOption = some none := by decide +kernel
  cases h : sampleImage.cmdPut ['C', '/', 'D'] [7] with
  | error e =>
    rw [h] at hnone
    cases hnone
  | ok img' =>
    obtain ⟨o, e, hfind, -⟩ := hall sampleImage img' _ _ wellFormed_sampleImage h
    rw [h, ok_bind, hfind] at hnone
    cases hnone

end Image

end Kolibri.KolibriImg
