import Kolibri.Fs.ExfatNames

/-! # Which files of an exFAT directory are found

`valid_data_length` is zero in the last sector, and `exFAT_find_lfn` gives up behind an entry that finds it zero.
-/

namespace Kolibri.Exfat

open Run List Nat

structure Directory (v : Volume) where
  n : Nat
  items : List Item
  place : Nat → Pair
  pos : 1 ≤ n
  full : (items.flatMap Item.entries).length = 16 * n
  next : ∀ j, j + 1 < n → nextSector v (place j) = .ok (place (j + 1))
  read : ∀ j < n, ∃ buffer, v.read (exfatGetSector v (place j)) = some buffer ∧
    ∀ k : Fin 16, (items.flatMap Item.entries)[16 * j + k]? = some (buffer k)

variable {v : Volume}

def Directory.entries (d : Directory v) : List Entry := d.items.flatMap Item.entries

structure Directory.Asked (d : Directory v) (w : Walk) (us : List (BitVec 16)) : Prop where
  pair : w.pair = d.place 0
  validDataLength : w.validDataLength = BitVec.ofNat 32 (512 * d.n)
  lfn : w.names.lfn.length = lfnUtf16Units
  path : ∃ t rest, Component w.names.path us t rest

def lastEntry (before : List Item) (s : FileSet) : Nat :=
  (before.flatMap Item.entries).length + s.entries.length - 1

/-- Zero is returned, with `edi` at the last entry of the file. -/
def Directory.Finds (d : Directory v) (w : Walk) (lfn : BitVec 32) (before : List Item) (s : FileSet) : Prop :=
  ∃ w' esi, exfatFindLfn v w lfn = some (.ok (w', esi)) ∧ w'.pair = d.place (lastEntry before s / 16) ∧
    w'.edi.val = lastEntry before s % 16 ∧ w'.names.fileDirEntry = s.primary ∧ w'.names.strExtDirEntry = s.stream

/-- The sector in which `valid_data_length` is zero for the first time. It is 32 bits wide. -/
def Directory.lastSeen (d : Directory v) : Nat := (d.n - 1) % 2 ^ 23

/-! ## Positions -/

structure Directory.At (d : Directory v) (w : Walk) (i : Nat) : Prop where
  pair : w.pair = d.place (i / 16)
  edi : w.edi.val = i % 16
  validDataLength : w.validDataLength.toNat = 512 * (d.n - 1 - i / 16) % 2 ^ 32
  buffer : ∀ k : Fin 16, d.entries[16 * (i / 16) + k]? = some (w.buffer k)

variable {d : Directory v} {w : Walk} {i : Nat}

theorem Directory.At.entry (h : d.At w i) : d.entries[i]? = some (w.buffer w.edi) := by
  have hentry := h.buffer w.edi
  rwa [h.edi, div_add_mod] at hentry

theorem Directory.At.names (h : d.At w i) (names : Names) : d.At { w with names } i :=
  ⟨h.pair, h.edi, h.validDataLength, h.buffer⟩

theorem Directory.At.last_iff (h : d.At w i) (hi : i ≤ 16 * d.lastSeen) :
    w.validDataLength = 0 ↔ i = 16 * d.lastSeen := by
  have hlength := h.validDataLength
  rw [← BitVec.toNat_inj, hlength]
  change _ = 0 ↔ _
  unfold lastSeen at *
  omega

theorem first_at {j : Nat} (hj : j < d.n) (hpair : w.pair = d.place j)
    (hlength : w.validDataLength.toNat = 512 * (d.n - j) % 2 ^ 32) :
    ∃ w', exFatNotrootFirst v w = .ok w' ∧ d.At w' (16 * j) ∧ w'.names = w.names := by
  obtain ⟨buffer, hread, hentries⟩ := d.read j hj
  have hdiv : 16 * j / 16 = j := by omega
  refine ⟨{ w with buffer, edi := 0, validDataLength := w.validDataLength - 512 }, ?_, ⟨?_, ?_, ?_, ?_⟩, rfl⟩
  · rw [exFatNotrootFirst, hpair, hread]
  · rw [hdiv]
    exact hpair
  · change 0 = _
    omega
  · rw [hdiv, BitVec.toNat_sub, hlength]
    change (2 ^ 32 - 512 + _) % 2 ^ 32 = _
    omega
  · rw [hdiv]
    exact hentries

theorem next_at (h : d.At w i) (hi : i + 1 < 16 * d.n) :
    ∃ w', exFatNotrootNext v w = .ok w' ∧ d.At w' (i + 1) ∧ w'.names = w.names := by
  have hedi := h.edi
  unfold exFatNotrootNext
  split_ifs with hlast
  · have hdiv : (i + 1) / 16 = i / 16 := by omega
    refine ⟨_, rfl, ⟨?_, ?_, ?_, ?_⟩, rfl⟩
    · rw [hdiv]
      exact h.pair
    · change w.edi.val + 1 = _
      omega
    · rw [hdiv]
      exact h.validDataLength
    · rw [hdiv]
      exact h.buffer
  · have hnext : 16 * (i / 16 + 1) = i + 1 := by omega
    rw [h.pair, d.next (i / 16) (by omega), ← hnext]
    refine first_at (by omega) rfl ?_
    rw [show d.n - (i / 16 + 1) = d.n - 1 - i / 16 by omega]
    exact h.validDataLength

/-! ## The loop -/

theorem findLoop_eq {init : List Entry} {last : Entry} {more : List Entry} {g : Names} {esi : List (BitVec 8)} {fuel : Nat}
    (hat : d.At w i) (hi : i ≤ 16 * d.lastSeen) (hentries : d.entries.drop i = init ++ last :: more)
    (hquiet : Quiet w.names init) (hmatch : matchEntry (final matchEntry w.names init) last = (g, some (some esi)))
    (hzero : g.secondaryDirEntry = 0) (hfuel : 16 * d.lastSeen < i + fuel) :
    (i + init.length ≤ 16 * d.lastSeen → ∃ w', findLoop v fuel w = some (.ok (w', esi)) ∧ d.At w' (i + init.length) ∧
      w'.names = g) ∧
    (16 * d.lastSeen < i + init.length → findLoop v fuel w = some (.error errorFileNotFound)) := by
  induction init generalizing i w fuel with
  | nil =>
    obtain ⟨fuel, rfl⟩ := exists_eq_succ_of_ne_zero (show fuel ≠ 0 by omega)
    have hlast : w.buffer w.edi = last := by
      have hentry := hat.entry
      rw [← add_zero i, ← List.getElem?_drop, hentries] at hentry
      exact (Option.some.inj hentry).symm
    refine ⟨fun _ => ⟨{ w with names := g }, ?_, hat.names g, rfl⟩, fun hlt => ?_⟩
    · change matchEntry w.names last = _ at hmatch
      rw [findLoop, hlast, hmatch]
      simp [finishFound, hzero]
    · rw [length_nil] at hlt
      omega
  | cons e init ih =>
    obtain ⟨fuel, rfl⟩ := exists_eq_succ_of_ne_zero (show fuel ≠ 0 by omega)
    have hentry : w.buffer w.edi = e := by
      have hentry := hat.entry
      rw [← add_zero i, ← List.getElem?_drop, hentries] at hentry
      exact (Option.some.inj hentry).symm
    obtain ⟨hpasses, hquiet⟩ := hquiet
    have hpair : matchEntry w.names e = ((matchEntry w.names e).1, some none) := Prod.ext rfl hpasses
    rw [findLoop, hentry, hpair]
    simp only [hat.last_iff hi]
    by_cases hend : i = 16 * d.lastSeen
    · rw [if_pos hend, length_cons]
      exact ⟨fun hle => by omega, fun _ => rfl⟩
    rw [if_neg hend]
    have hin : i + 1 < 16 * d.n := by
      unfold Directory.lastSeen at *
      omega
    obtain ⟨w', hnext, hat', hnames⟩ := next_at (hat.names (matchEntry w.names e).1) hin
    rw [hnext]
    have hdrop : d.entries.drop (i + 1) = init ++ last :: more := by
      rw [← drop_drop, hentries]
      rfl
    have hrest := ih hat' (by omega) hdrop (by rw [hnames]; exact hquiet) (by rw [hnames]; exact hmatch)
      (show 16 * d.lastSeen < i + 1 + fuel by omega)
    rwa [add_assoc, add_comm 1, ← length_cons (a := e)] at hrest

/-! ## The lookup -/

/-- **A file is found** if its last entry is not behind the first entry of the last sector, and only then. -/
theorem exfat_find_lfn_finds_iff (d : Directory v) (w : Walk) (lfn : BitVec 32) (us : List (BitVec 16))
    (hasked : d.Asked w us) (before : List Item) (s : FileSet) (behind : List Item)
    (hitems : d.items = before ++ .file s :: behind) (hname : us.map upper = s.name.map upper)
    (hearlier : ∀ s', .file s' ∈ before → us.map upper ≠ s'.name.map upper) :
    d.Finds w lfn before s ↔ lastEntry before s ≤ 16 * d.lastSeen := by
  obtain ⟨t, rest, hpath⟩ := hasked.path
  have hroom : us.length < lfnUtf16Units := by
    have hlength := congrArg List.length hname
    rw [length_map, length_map] at hlength
    have hle := s.name_le
    unfold lfnUtf16Units
    omega
  -- The first sector is loaded, and the hash is taken from the path.
  obtain ⟨w1, hfirst, hat, hnames⟩ := first_at (d := d) (j := 0)
    (w := { w with names := { w.names with secondaryDirEntry := 1, needHash := true } }) d.pos hasked.pair (by
      rw [hasked.validDataLength, BitVec.toNat_ofNat, Nat.sub_zero])
  have hfill : fillLfn lfnUtf16Units w1.names.path lfn = some (us.map upper ++ [t]) := by
    rw [hnames]
    exact fillLfn_eq hpath hroom lfn
  let names : Names :=
    { w1.names with
      currentHash := (exfatHashCalculate (us.map upper)).setWidth 32
      lfn := overwrite w1.names.lfn 0 (us.map upper ++ [t])
      esi := .path 0 }
  have hlookup : exfatFindLfn v w lfn = findLoop v findFuel { w1 with names } := by
    simp only [exfatFindLfn, hfirst, hfill, Option.bind_eq_bind, Option.bind_some, dropLast_concat]
    rfl
  have hready : Ready w.names.path us names := by
    refine ⟨?_, ?_, rfl, ?_⟩
    · change w1.names.path = _
      rw [hnames]
    · change w1.names.needHash = _
      rw [hnames]
    · change (overwrite w1.names.lfn 0 (us.map upper ++ [t])).length = _
      rw [hnames, length_overwrite, hasked.lfn]
      rw [hasked.lfn, length_append, length_map, length_singleton]
      omega
  -- The items before the file pass, and its own last entry ends the search.
  obtain ⟨hbefore, hready'⟩ := items_pass hready hpath hearlier
  obtain ⟨init, last, g, esi, hset, hinit, hmatch, hzero, hfile, hstream⟩ := file_found hready' hpath hname
  have hentries : d.entries.drop 0 =
      (before.flatMap Item.entries ++ init) ++ last :: behind.flatMap Item.entries := by
    rw [drop_zero, Directory.entries, hitems, flatMap_append, flatMap_cons, Item.entries, hset]
    simp
  have hposition : lastEntry before s = 0 + (before.flatMap Item.entries ++ init).length := by
    rw [lastEntry, hset, length_append, length_append, length_singleton]
    omega
  have hfuel : 16 * d.lastSeen < 0 + findFuel := by
    unfold Directory.lastSeen findFuel
    omega
  obtain ⟨hseen, hunseen⟩ := findLoop_eq (hat.names names) (Nat.zero_le _) hentries
    (allowed_append.mpr ⟨hbefore, hinit⟩) (by rw [final_append]; exact hmatch) hzero hfuel
  rw [← hposition] at hseen hunseen
  constructor
  · rintro ⟨w', esi', hfound, -⟩
    by_contra hlt
    rw [hlookup, hunseen (by omega)] at hfound
    cases hfound
  · intro hle
    obtain ⟨w', hfound, hat', rfl⟩ := hseen hle
    exact ⟨w', esi, hlookup.trans hfound, hat'.pair, hat'.edi, hfile, hstream⟩

def fileA : FileSet where
  name := [0x61]
  primary i := if i = 0 then 0x85 else if i = 1 then 2 else 0
  stream i := if i = 0 then 0xC0 else if i = 4 then 0x20 else if i = 5 then 0x80 else 0
  parts := [fun i => if i = 0 then 0xC1 else if i = 2 then 0x61 else 0]
  pad := 14
  primary_type := rfl
  secondary_count := rfl
  stream_type := rfl
  name_hash := by decide +kernel
  part_type := by simp
  units := by decide +kernel
  name_pos := by decide
  name_le := by decide
  pad_lt := by decide
  letters := by simp [slash]

def freeEntry : Item := .other (fun _ => 0) (by decide)

def volumeA : Volume where
  sectorsPerCluster := 2
  clusterHeapStart := 0
  fatReserved := 0x0FFFFFF6
  generalSecFlags := 2
  getFat _ := none
  read sector := some fun k => if sector = 0 then (fileA.entries[k.val]?).getD fun _ => 0 else fun _ => 0

def directoryA (m : Fin 2) : Directory volumeA where
  n := m + 1
  items := .file fileA :: List.replicate (16 * (m + 1) - 3) freeEntry
  place j := ⟨2, BitVec.ofNat 32 j⟩
  pos := by omega
  full := by decide +revert +kernel
  next := by
    intro j hj
    obtain rfl : j = 0 := by omega
    decide +kernel
  read := by
    intro j hj
    refine ⟨_, rfl, ?_⟩
    have hlt : j < 2 := by omega
    revert m
    interval_cases j <;> decide +kernel

def walkA (n : Nat) : Walk where
  pair := ⟨2, 0⟩
  validDataLength := BitVec.ofNat 32 (512 * n)
  buffer _ _ := 0
  edi := 0
  names := ⟨false, 0, 0, false, 0, fun _ => 0, fun _ => 0, .path 0, List.replicate lfnUtf16Units 0, [0x61, 0]⟩

theorem askedA (m : Fin 2) : (directoryA m).Asked (walkA (m + 1)) [0x61] := by
  have hdecoded : Unicode.calls 2 [0x61, 0] 0 = some ([0x61, 0], []) := by decide +kernel
  exact ⟨rfl, rfl, length_replicate, 0, [], hdecoded, .inl rfl, by simp [slash]⟩

theorem exfat_finds_in_two_sectors : (directoryA 1).Finds (walkA 2) 0 [] fileA :=
  (exfat_find_lfn_finds_iff (directoryA 1) (walkA 2) 0 [0x61] (askedA 1) [] fileA _ rfl rfl (by simp)).mpr
    (by decide +kernel)

/-- In a directory of one sector only its first entry is looked at. -/
theorem exfat_misses_last_sector : ¬ ∀ (v : Volume) (d : Directory v) (w : Walk) (lfn : BitVec 32) (us : List (BitVec 16)),
    d.Asked w us → ∀ (before : List Item) (s : FileSet) (behind : List Item), d.items = before ++ .file s :: behind →
      us.map upper = s.name.map upper → (∀ s', .file s' ∈ before → us.map upper ≠ s'.name.map upper) →
      d.Finds w lfn before s := by
  intro h
  obtain ⟨w', esi, hfound, -⟩ := h volumeA (directoryA 0) (walkA 1) 0 [0x61] (askedA 0) [] fileA _ rfl rfl (by simp)
  have hfails : (exfatFindLfn volumeA (walkA 1) 0).map Except.toBool = some false := by decide +kernel
  rw [hfound] at hfails
  cases hfails

end Kolibri.Exfat
