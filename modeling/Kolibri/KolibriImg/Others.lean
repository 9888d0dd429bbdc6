import Kolibri.KolibriImg.Edits

/-!
# The other files

A command on one file of the root directory leaves every other file and directory as it was.
-/

namespace Kolibri.KolibriImg

open Outcome Bytes List

/-! ## Entries that can be reached -/

def slots (base : Nat) : Nat → List Nat
  | 0 => []
  | n + 1 => base :: slots (base + 32) n

variable {base n o : Nat}

theorem mem_slots : o ∈ slots base n ↔ ∃ k < n, o = base + 32 * k := by
  induction n generalizing base with
  | zero => simp [slots]
  | succ n ih =>
    rw [slots, mem_cons, ih]
    constructor
    · rintro (rfl | ⟨k, hk, rfl⟩)
      · exact ⟨0, by omega, by omega⟩
      · exact ⟨k + 1, by omega, by omega⟩
    · rintro ⟨k, hk, rfl⟩
      cases k with
      | zero => exact .inl rfl
      | succ k => exact .inr ⟨k, by omega, by omega⟩

namespace DirEntry

def isNamed (e : DirEntry) : Bool := !e.isDeleted && !e.isLfn && !e.isVolumeLabel

def isDots (e : DirEntry) : Bool :=
  e.rawName = 0x2E :: List.replicate 10 0x20 ∨ e.rawName = 0x2E :: 0x2E :: List.replicate 9 0x20

end DirEntry

namespace Image

variable {img img' : Image} {c o t start last : Nat} {chain freed new : List Nat} {e : DirEntry}

def entryAt (img : Image) (o : Nat) : Option DirEntry := DirEntry.parse fun i => img.data.bytes (o + i)

/-- A directory ends at the first entry that starts with 0. -/
def live (img : Image) (l : List Nat) : List Nat := l.takeWhile fun o => img.data.bytes o ≠ 0

def rootSlots (img : Image) : List Nat := slots img.bpb.rootOffset (img.bpb.rootSize / 32)

def clusterSlots (img : Image) (c : Nat) : List Nat := slots (img.clusterAt c) (img.bpb.clusterSize / 32)

/-- The files and directories below the root, with the offsets of their entries. -/
inductive Reach (img : Image) : Nat → DirEntry → Prop
  | root {o : Nat} {e : DirEntry} : o ∈ img.live img.rootSlots → img.entryAt o = some e → e.isNamed → Reach img o e
  | sub {o o' last : Nat} {d e : DirEntry} {chain : List Nat} : Reach img o d → d.isDir →
      img.ChainOf d.startCluster chain last → o' ∈ img.live (chain.flatMap img.clusterSlots) →
      img.entryAt o' = some e → e.isNamed → ¬ e.isDots → Reach img o' e

/-- Every chain ends in an end mark, and no two share a cluster. -/
structure WellFormed (img : Image) : Prop where
  sized : img.Sized
  fats : img.bpb.fatCount ≠ 0
  chain : ∀ o e, img.Reach o e → ∃ chain last, img.ChainOf e.startCluster chain last ∧
    (e.startCluster < 2 ∨ img.isEoc last) ∧ ∀ c ∈ chain, img.InFat c ∧ img.InData c
  disjoint : ∀ o e o' e' chain last chain' last', img.Reach o e → img.Reach o' e' → o ≠ o' →
    img.ChainOf e.startCluster chain last → img.ChainOf e'.startCluster chain' last' → chain.Disjoint chain'

structure Unchanged (img img' : Image) (o : Nat) (e : DirEntry) : Prop where
  entry : ∀ i < 32, img'.data.bytes (o + i) = img.data.bytes (o + i)
  chain : ∀ chain last, img.ChainOf e.startCluster chain last → img'.ChainOf e.startCluster chain last
  contents : img'.readFile e = img.readFile e

theorem Reach.entryAt (h : img.Reach o e) : img.entryAt o = some e := by
  cases h with
  | root _ hentry _ => exact hentry
  | sub _ _ _ _ hentry _ _ => exact hentry

theorem Reach.isNamed (h : img.Reach o e) : e.isNamed := by
  cases h with
  | root _ _ hnamed => exact hnamed
  | sub _ _ _ _ _ hnamed _ => exact hnamed

theorem Reach.mem_slots (h : img.Reach o e) : o ∈ img.rootSlots ∨
    ∃ od d chain last c, img.Reach od d ∧ d.isDir ∧ img.ChainOf d.startCluster chain last ∧ c ∈ chain ∧
      o ∈ img.clusterSlots c := by
  cases h with
  | root hlive _ _ => exact .inl (takeWhile_subset _ hlive)
  | @sub od _ last d _ chain hreach hdir hchain hlive _ _ _ =>
    obtain ⟨c, hc, ho⟩ := mem_flatMap.mp (takeWhile_subset _ hlive)
    exact .inr ⟨od, d, chain, last, c, hreach, hdir, hchain, hc, ho⟩

/-! ## Separation -/

theorem slot_root (h : o ∈ img.rootSlots) : img.bpb.rootOffset ≤ o ∧ o + 32 ≤ img.bpb.dataOffset ∧
    ∃ k, o = img.bpb.rootOffset + 32 * k := by
  obtain ⟨k, hk, rfl⟩ := mem_slots.mp h
  unfold Bpb.dataOffset
  exact ⟨by omega, by omega, k, rfl⟩

variable {i : Nat} {want : List (BitVec 8)}

theorem slot_cluster (h : o ∈ img.clusterSlots c) (hi : i < 32) : img.InCluster c (o + i) := by
  obtain ⟨k, hk, rfl⟩ := mem_slots.mp h
  constructor <;> omega

theorem InCluster.dataOffset_le (h : img.InCluster c i) : img.bpb.dataOffset ≤ i := by
  have := h.1
  unfold clusterAt at this
  omega

theorem ChainOf.entry_ne_zero (h : img.ChainOf start chain last) (hend : start < 2 ∨ img.isEoc last)
    (hc : c ∈ chain) : img.fatEntry c ≠ 0 := by
  intro hzero
  have hlast : img.isEoc last := by
    rcases hend with hstart | hend
    · cases h with
      | stop => cases hc
      | step hgo =>
        have := (goesOn_iff.mp hgo).1
        omega
    · exact hend
  rcases h.next_mem hc with hmem | heq
  · have := (goesOn_iff.mp (h.goes_of_mem hmem)).1
    omega
  · rw [hzero] at heq
    have : img.bpb.fatKind.eocMin ≤ last := of_decide_eq_true hlast
    have : img.bpb.fatKind.eocMin ≠ 0 := by cases img.bpb.fatKind <;> decide
    omega

theorem Effect.spares (heff : Effect img img' start t freed new) (hwf : img.WellFormed)
    (htarget : start < 2 ∨ ∃ et, img.Reach t et ∧ et.startCluster = start) (hreach : img.Reach o e) (hne : o ≠ t)
    (hchain : img.ChainOf e.startCluster chain last) (hc : c ∈ chain) : c ∉ freed ∧ c ∉ new := by
  have hfreed : c ∉ freed := by
    intro hmem
    rcases htarget with hlt | ⟨et, ht, rfl⟩
    · have hnil : img.ChainOf start [] start := .stop fun hgo => by
        have := (goesOn_iff.mp hgo).1
        omega
      cases heff.freed_subset [] start hnil hmem
    · obtain ⟨chain', last', hchain', -⟩ := hwf.chain t et ht
      exact hwf.disjoint o e t et _ _ _ _ hreach ht hne hchain hchain' hc (heff.freed_subset _ _ hchain' hmem)
  refine ⟨hfreed, fun hmem => ?_⟩
  obtain ⟨chain', last', hchain', hend, -⟩ := hwf.chain o e hreach
  obtain ⟨rfl, rfl⟩ := hchain.unique hchain'
  rcases (heff.new_free c hmem).2 with h | h
  · exact hfreed h
  · exact ChainOf.entry_ne_zero hchain hend hc h

/-! ## Reading after an edit -/

theorem readLoop_congr {a fuel : Nat} {maxBytes : Option Nat} {out : List (BitVec 8)}
    (hbpb : img'.bpb = img.bpb) (hlen : img'.data.len = img.data.len) (h : img.ChainOf a chain last)
    (hsame : ∀ c ∈ chain, img.InFat c ∧ img'.fatEntry c = img.fatEntry c ∧
      img'.slice (img.clusterAt c) img.bpb.clusterSize = img.slice (img.clusterAt c) img.bpb.clusterSize) :
    img'.readLoop maxBytes fuel a out = img.readLoop maxBytes fuel a out := by
  have hgoes : ∀ c, img'.goesOn c = img.goesOn c := by
    intro c
    rw [goesOn, goesOn, isEoc, isEoc, hbpb]
  induction h generalizing fuel out with
  | @stop a hstop =>
    cases fuel with
    | zero => rfl
    | succ fuel => rw [readLoop, readLoop, hgoes, if_neg hstop, if_neg hstop]
  | @step a e l hgo hrest ih =>
    cases fuel with
    | zero => rfl
    | succ fuel =>
      obtain ⟨hin, hentry, hslice⟩ := hsame a mem_cons_self
      have htwo := (goesOn_iff.mp hgo).1
      have hoff : img'.clusterOffset a = .ok (img.clusterAt a) :=
        clusterOffset_eq_ok.mpr ⟨htwo, by rw [clusterAt, clusterAt, hbpb]⟩
      have hget : img'.fatGet a = .ok (img.fatEntry a) := by
        refine fatGet_eq_ok.mpr ⟨?_, hentry.symm⟩
        unfold InFat wordAt at hin ⊢
        rwa [hbpb, hlen]
      rw [readLoop, readLoop, hgoes, if_pos hgo, if_pos hgo, hoff, clusterOffset_eq_ok.mpr ⟨htwo, rfl⟩, ok_bind,
        ok_bind, hbpb, hlen, hslice, hget, fatGet_eq_ok.mpr ⟨hin, rfl⟩]
      simp only [ok_bind]
      rw [ih fun c hc => hsame c (mem_cons_of_mem a hc)]

theorem readFile_congr (hbpb : img'.bpb = img.bpb) (hlen : img'.data.len = img.data.len)
    (h : img.ChainOf e.startCluster chain last)
    (hsame : ∀ c ∈ chain, img.InFat c ∧ img'.fatEntry c = img.fatEntry c ∧
      img'.slice (img.clusterAt c) img.bpb.clusterSize = img.slice (img.clusterAt c) img.bpb.clusterSize) :
    img'.readFile e = img.readFile e := by
  unfold readFile readClusters
  rw [readLoop_congr hbpb hlen h hsame]

theorem Effect.bytes_cluster (heff : Effect img img' start t freed new) (ht : t ∈ img.rootSlots) (htwo : 2 ≤ c)
    (hc : c ∉ new) (hi : img.InCluster c i) : img'.data.bytes i = img.data.bytes i := by
  obtain ⟨hlo, hhi, -⟩ := slot_root ht
  have := hi.dataOffset_le
  refine heff.edits.bytes i ?_ ?_ fun d hd hin => ?_
  · omega
  · omega
  · have heq := hin.eq (heff.new_free d hd).1 htwo hi
    exact hc (heq ▸ hd)

theorem Effect.bytes_root (heff : Effect img img' start t freed new) (ht : t ∈ img.rootSlots) (ho : o ∈ img.rootSlots)
    (hne : o ≠ t) (hi : i < 32) : img'.data.bytes (o + i) = img.data.bytes (o + i) := by
  obtain ⟨-, -, k, hk⟩ := slot_root ht
  obtain ⟨hlo, hhi, k', hk'⟩ := slot_root ho
  refine heff.edits.bytes (o + i) ?_ ?_ fun d _ hin => ?_
  · omega
  · omega
  · have := hin.dataOffset_le
    omega

theorem Effect.unchanged (heff : Effect img img' start t freed new) (hwf : img.WellFormed) (ht : t ∈ img.rootSlots)
    (htarget : start < 2 ∨ ∃ et, img.Reach t et ∧ et.startCluster = start)
    (hdirs : ∀ d, img.Reach t d → ¬ d.isDir) (hreach : img.Reach o e) (hne : o ≠ t) : Unchanged img img' o e := by
  obtain ⟨chain, last, hchain, -, hin⟩ := hwf.chain o e hreach
  have hspared : ∀ c ∈ chain, c ∉ freed ∧ c ∉ new := fun c hc => heff.spares hwf htarget hreach hne hchain hc
  have hentry : ∀ c ∈ chain, img'.fatEntry c = img.fatEntry c := fun c hc =>
    heff.edits.entry c (hin c hc).1 (by simpa using hspared c hc)
  refine ⟨fun i hi => ?_, fun chain' last' hchain' => ?_, readFile_congr heff.edits.bpb heff.edits.len hchain
    fun c hc => ⟨(hin c hc).1, hentry c hc, slice_congr fun i hlo hhi => ?_⟩⟩
  · rcases hreach.mem_slots with hroot | ⟨od, d, chain', last', c, hd, hdir, hchain', hc, ho⟩
    · exact heff.bytes_root ht hroot hne hi
    -- the directory is not the file the command is about
    have hod : od ≠ t := by
      rintro rfl
      exact hdirs d hd hdir
    have htwo := (goesOn_iff.mp (hchain'.goes_of_mem hc)).1
    exact heff.bytes_cluster ht htwo (heff.spares hwf htarget hd hod hchain' hc).2 (slot_cluster ho hi)
  · obtain ⟨rfl, rfl⟩ := hchain.unique hchain'
    refine hchain.congr hentry fun c => ?_
    rw [goesOn_iff, goesOn_iff, heff.edits.bpb]
  · exact heff.bytes_cluster ht (hin c hc).2.1 (hspared c hc).2 ⟨hlo, hhi⟩

/-! ## The searches through the root directory -/

theorem scanEntries_found (h : img.scanEntries want n base = .ok (.found o e)) :
    o ∈ img.live (slots base n) ∧ img.entryAt o = some e ∧ wanted want e := by
  induction n generalizing base with
  | zero => cases h
  | succ n ih =>
    rw [scanEntries, bind_eq_ok] at h
    obtain ⟨_, -, h⟩ := h
    cases hparse : img.entryAt base with
    | none =>
      unfold entryAt at hparse
      rw [hparse] at h
      cases h
    | some e' =>
      have hlive : img.data.bytes base ≠ 0 := by
        intro hzero
        unfold entryAt DirEntry.parse at hparse
        rw [if_pos (by simpa using hzero)] at hparse
        cases hparse
      have hcons : img.live (slots base (n + 1)) = base :: img.live (slots (base + 32) n) := by
        rw [live, slots, takeWhile_cons_of_pos (by simpa using hlive), live]
      unfold entryAt at hparse
      rw [hparse] at h
      dsimp only at h
      split at h
      · rename_i hwanted
        cases h
        exact ⟨by rw [hcons]; exact mem_cons_self, hparse, hwanted⟩
      · obtain ⟨hmem, hrest⟩ := ih h
        exact ⟨by rw [hcons]; exact mem_cons_of_mem _ hmem, hrest⟩

theorem findRootFileOffset_found (h : img.findRootFileOffset want = .ok (some (o, e))) :
    img.Reach o e ∧ o ∈ img.rootSlots ∧ e.rawName = want := by
  rw [findRootFileOffset, bind_eq_ok] at h
  obtain ⟨scan, hscan, h⟩ := h
  cases scan with
  | found o' e' =>
    cases h
    obtain ⟨hlive, hentry, hwanted⟩ := scanEntries_found hscan
    simp only [wanted, Bool.and_eq_true, decide_eq_true_eq] at hwanted
    refine ⟨.root hlive hentry ?_, takeWhile_subset _ hlive, hwanted.2⟩
    simp only [DirEntry.isNamed, Bool.and_eq_true]
    exact hwanted.1
  | ended => cases h
  | past => cases h

theorem freeDirentLoop_spec (h : img.freeDirentLoop n base = .ok o) :
    o ∈ slots base n ∧ (img.data.bytes o = 0x00 ∨ img.data.bytes o = 0xE5) := by
  induction n generalizing base with
  | zero => exact absurd h fail_ne_ok
  | succ n ih =>
    rw [freeDirentLoop, bind_eq_ok] at h
    obtain ⟨_, -, h⟩ := h
    dsimp only at h
    split at h
    · rename_i hfirst
      cases h
      exact ⟨mem_cons_self, hfirst⟩
    · obtain ⟨hmem, hfirst⟩ := ih h
      exact ⟨mem_cons_of_mem _ hmem, hfirst⟩

theorem not_reach_free (hfree : img.data.bytes o = 0x00 ∨ img.data.bytes o = 0xE5) : ¬ img.Reach o e := by
  intro hreach
  have hentry := hreach.entryAt
  have hnamed := hreach.isNamed
  unfold entryAt DirEntry.parse at hentry
  rcases hfree with h | h
  · rw [if_pos (by simpa using h)] at hentry
    cases hentry
  · rw [if_neg (by simp [h]), if_pos (by simpa using h)] at hentry
    cases hentry
    simp [DirEntry.isNamed, DirEntry.isDeleted] at hnamed

end Image

/-! ## The commands -/

inductive Command where
  | put (name : List Char) (newBytes : List (BitVec 8))
  | replace (name : List Char) (newBytes : List (BitVec 8))
  | delete (ignoreMissing : Bool) (name : List Char)

namespace Command

open Image

variable {img img' : Image} {cmd : Command} {fat : List (BitVec 8)}

def run (img : Image) : Command → Outcome Image
  | put name newBytes => img.cmdPut name newBytes
  | replace name newBytes => img.cmdReplace name newBytes
  | delete ignoreMissing name => img.cmdDelete ignoreMissing name

def OnRootFile (img : Image) (fat : List (BitVec 8)) : Command → Prop
  | put name _ => toFat83 name = .ok fat
  | replace name _ => toFat83 name = .ok fat
  | delete _ name => ∃ component p, components name = [component] ∧ toFat83 component = .ok fat ∧
      img.findRootFileOffset fat = .ok (some p)

def Target (img img' : Image) (fat : List (BitVec 8)) : Prop :=
  ∃ start t freed new, Effect img img' start t freed new ∧ t ∈ img.rootSlots ∧
    (start < 2 ∨ ∃ et, img.Reach t et ∧ et.startCluster = start) ∧ (∀ d, img.Reach t d → ¬ d.isDir) ∧
      ∀ d, img.Reach t d → img.findRootFileOffset fat = .ok (some (t, d))

variable {et : DirEntry} {t : Nat} {name : List Char} {newBytes : List (BitVec 8)}

theorem target_of_found {freed new : List Nat} (hfound : img.findRootFileOffset fat = .ok (some (t, et)))
    (hdir : ¬ et.isDir) (heff : Effect img img' et.startCluster t freed new) : Target img img' fat := by
  obtain ⟨hreach, hslot, -⟩ := findRootFileOffset_found hfound
  have hsame : ∀ d, img.Reach t d → d = et := fun d hd =>
    Option.some.inj (hd.entryAt.symm.trans hreach.entryAt)
  refine ⟨_, t, freed, new, heff, hslot, .inr ⟨et, hreach, rfl⟩, fun d hd => ?_, fun d hd => ?_⟩
  · rw [hsame d hd]
    exact hdir
  · rw [hsame d hd]
    exact hfound

theorem rootOffset_le_of_found (hfound : img.findRootFileOffset fat = .ok (some (t, et))) : img.bpb.rootOffset ≤ t :=
  (slot_root (findRootFileOffset_found hfound).2.1).1

theorem put_target (hwf : img.WellFormed) (hfat : toFat83 name = .ok fat) (h : img.cmdPut name newBytes = .ok img') :
    Target img img' fat := by
  rw [cmdPut, hfat, ok_bind, bind_eq_ok] at h
  obtain ⟨found, hfind, h⟩ := h
  cases found with
  | some p =>
    rw [bind_eq_ok] at h
    obtain ⟨_, hdir, h⟩ := h
    obtain ⟨freed, new, heff⟩ := replaceAt_effect hwf.fats hwf.sized (rootOffset_le_of_found hfind) h
    exact target_of_found hfind (require_eq_ok.mp hdir) heff
  | none =>
    rw [bind_eq_ok] at h
    obtain ⟨t, hslot, h⟩ := h
    obtain ⟨hmem, hfree⟩ := freeDirentLoop_spec hslot
    obtain ⟨new, heff⟩ := createAt_effect hwf.fats hwf.sized (slot_root hmem).1 h
    exact ⟨0, t, [], new, heff, hmem, .inl (by decide), fun d hd => absurd hd (not_reach_free hfree),
      fun d hd => absurd hd (not_reach_free hfree)⟩

theorem replace_target (hwf : img.WellFormed) (hfat : toFat83 name = .ok fat)
    (h : img.cmdReplace name newBytes = .ok img') : Target img img' fat := by
  rw [cmdReplace, hfat, ok_bind, bind_eq_ok] at h
  obtain ⟨found, hfind, h⟩ := h
  cases found with
  | some p =>
    rw [bind_eq_ok] at h
    obtain ⟨_, hdir, h⟩ := h
    obtain ⟨freed, new, heff⟩ := replaceAt_effect hwf.fats hwf.sized (rootOffset_le_of_found hfind) h
    exact target_of_found hfind (require_eq_ok.mp hdir) heff
  | none => exact absurd h fail_ne_ok

theorem delete_target (hwf : img.WellFormed) {component : List Char} {ignoreMissing : Bool} {p : Nat × DirEntry}
    (hname : components name = [component]) (hfat : toFat83 component = .ok fat)
    (hfound : img.findRootFileOffset fat = .ok (some p)) (h : img.cmdDelete ignoreMissing name = .ok img') :
    Target img img' fat := by
  rw [cmdDelete, findFilePath, hname] at h
  dsimp only at h
  rw [hfat, ok_bind, hfound, ok_bind] at h
  rw [bind_eq_ok] at h
  obtain ⟨_, hdir, h⟩ := h
  rw [bind_eq_ok] at h
  obtain ⟨img1, hfree, h⟩ := h
  rw [bind_eq_ok] at h
  obtain ⟨img2, hmark, hmirror⟩ := h
  obtain ⟨freed, heff⟩ := delete_effect hwf.fats (rootOffset_le_of_found hfound) hfree hmark hmirror
  exact target_of_found hfound (require_eq_ok.mp hdir) heff

theorem run_target (hwf : img.WellFormed) (hcmd : cmd.OnRootFile img fat) (h : cmd.run img = .ok img') :
    Target img img' fat := by
  cases cmd with
  | put name newBytes => exact put_target hwf hcmd h
  | replace name newBytes => exact replace_target hwf hcmd h
  | delete ignoreMissing name =>
    obtain ⟨component, p, hname, hfat, hfound⟩ := hcmd
    exact delete_target hwf hname hfat hfound h

/-- Every other file and directory keeps its entry, its chain and its bytes, and the FATs agree. -/
theorem run_keeps_others (hwf : img.WellFormed) (hcmd : cmd.OnRootFile img fat) (h : cmd.run img = .ok img') :
    (∀ o e, img.Reach o e → (∀ e', img.findRootFileOffset fat ≠ .ok (some (o, e'))) → Unchanged img img' o e) ∧
      ∀ k < img.bpb.fatCount, img'.CopyAgrees k := by
  obtain ⟨start, t, freed, new, heff, hslot, htarget, hdirs, honly⟩ := run_target hwf hcmd h
  refine ⟨fun o e hreach hother => heff.unchanged hwf hslot htarget hdirs hreach ?_, heff.copies⟩
  rintro rfl
  exact hother e (honly e hreach)

/-! ### One file beside another -/

def sampleEntry : DirEntry where
  rawName := 0x41 :: List.replicate 10 0x20
  attr := 0x20
  startCluster := 2
  size := 1

def sampleImage : Image where
  data := {
    len := 3072
    bytes :=
      let fat := Buffer.overlay (bootSector 2 16 6) 512 [0xF8, 0xFF, 0xFF, 0xFF, 0x0F]
      let named := Buffer.overlay fat 1536 (sampleEntry.rawName ++ [0x20])
      Buffer.overlay named 1562 [2, 0, 1] }
  bpb := {
    bytesPerSector := 512, sectorsPerCluster := 1, reservedSectors := 1, fatCount := 2
    rootEntries := 16, totalSectors := 6, sectorsPerFat := 1 }

theorem reach_sampleImage {e : DirEntry} (h : sampleImage.Reach o e) : o = 1536 ∧ e = sampleEntry := by
  induction h with
  | root hlive hentry _ =>
    have hslots : sampleImage.live sampleImage.rootSlots = [1536] := by decide +kernel
    rw [hslots, mem_singleton] at hlive
    subst hlive
    have hsample : sampleImage.entryAt 1536 = some sampleEntry := by decide +kernel
    exact ⟨rfl, Option.some.inj (hentry.symm.trans hsample)⟩
  | sub _ hdir _ _ _ _ _ ih =>
    rw [ih.2] at hdir
    exact absurd hdir (by decide)

theorem wellFormed_sampleImage : sampleImage.WellFormed where
  sized := ⟨by decide, by decide⟩
  fats := by decide
  chain o e h := by
    obtain ⟨rfl, rfl⟩ := reach_sampleImage h
    have hentry : sampleImage.fatEntry 2 = 0xFFF := by decide +kernel
    refine ⟨[2], 0xFFF, .step (by decide) ?_, .inr (by decide), ?_⟩
    · change sampleImage.ChainOf (sampleImage.fatEntry 2) [] 0xFFF
      rw [hentry]
      exact .stop (by decide)
    · simp only [mem_singleton, forall_eq]
      exact ⟨⟨by decide, by decide⟩, by decide, by decide⟩
  disjoint o e o' e' _ _ _ _ h h' hne := by
    obtain ⟨rfl, rfl⟩ := reach_sampleImage h
    obtain ⟨rfl, rfl⟩ := reach_sampleImage h'
    exact absurd rfl hne

theorem run_keeps_others_sample : ∃ img', (put ['B'] [7]).run sampleImage = .ok img' ∧
    Unchanged sampleImage img' 1536 sampleEntry ∧ ∀ k < 2, img'.CopyAgrees k := by
  have hok : ((put ['B'] [7]).run sampleImage).toOption.isSome := by decide +kernel
  cases h : (put ['B'] [7]).run sampleImage with
  | error e =>
    rw [h] at hok
    cases hok
  | ok img' =>
    have hfat : (put ['B'] [7]).OnRootFile sampleImage (0x42 :: List.replicate 10 0x20) := by rfl
    have hnone : sampleImage.findRootFileOffset (0x42 :: List.replicate 10 0x20) = .ok none := by rfl
    obtain ⟨hothers, hcopies⟩ := run_keeps_others wellFormed_sampleImage hfat h
    refine ⟨img', rfl, hothers 1536 sampleEntry (.root ?_ ?_ (by decide)) fun e' he => ?_, hcopies⟩
    · decide +kernel
    · decide +kernel
    · rw [hnone] at he
      cases he

end Command

end Kolibri.KolibriImg
