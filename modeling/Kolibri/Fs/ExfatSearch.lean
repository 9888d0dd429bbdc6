import Kolibri.Fs.ExfatLookup

/-! # The search for a name in any directory

First with the hooks of `exfat_find_lfn_inner`, which may enumerate any names, then with `exFAT_get_name` and any
sequence of entries.
-/

namespace Kolibri.Exfat

open Run Unicode List

/-! ## Hooks -/

/-- What the search and its hooks share. The hooks may keep anything in `state`. -/
structure Ctx (σ : Type) where
  state : σ
  secondaryDirEntry : BitVec 32
  needHash : BitVec 32
  currentHash : BitVec 32
  validDataLength : BitVec 32
  lfn : List (BitVec 16)
  edi : BitVec 32

/-- `first` and `next` give `eax` if they set the carry. -/
structure Hooks (σ : Type) where
  first : Ctx σ → Ctx σ × Option (BitVec 32)
  next : Ctx σ → Ctx σ × Option (BitVec 32)
  getName : Ctx σ → Ctx σ × Bool

variable {σ : Type} (h : Hooks σ) (path : List (BitVec 8))

/-- `eax`, the fields and what is left of the path at `esi`. -/
abbrev HookAnswer (σ : Type) := BitVec 32 × Ctx σ × List (BitVec 8)

def finishFoundHooks (c : Ctx σ) (esi : List (BitVec 8)) : HookAnswer σ :=
  if c.secondaryDirEntry ≠ 0 then
    match h.next c with
    | (c, some eax) => (eax, c, esi)
    | (c, none) => (0, c, esi)
  else (0, c, esi)

def findLoopHooks : Nat → Ctx σ → Option (HookAnswer σ)
  | 0, _ => none
  | fuel + 1, c =>
    let (c, cf) := h.getName c
    match if cf || c.secondaryDirEntry ≠ 0 then some none else comparePath c.lfn path 0 with
    | none => none
    | some (some esi) => some (finishFoundHooks h c esi)
    | some none =>
      if c.validDataLength = 0 then some (errorFileNotFound, c, path)
      else
        match h.next c with
        | (c, some eax) => some (eax, c, path)
        | (c, none) => findLoopHooks fuel c

def exfatFindLfnInner (lfn : BitVec 32) (fuel : Nat) (c : Ctx σ) : Option (HookAnswer σ) :=
  match h.first { c with secondaryDirEntry := 1, needHash := 1 } with
  | (c, some eax) => some (eax, c, path)
  | (c, none) => do
    let us ← fillLfn lfnUtf16Units path lfn
    let currentHash := (exfatHashCalculate us.dropLast).setWidth 32
    findLoopHooks h path fuel { c with currentHash, lfn := overwrite c.lfn 0 us }

/-- `At` says how far the hooks are in `names`, and `entry` where `edi` then points to. -/
structure Enumerates (names : List (List (BitVec 16))) (entry : Nat → BitVec 32) (error : BitVec 32)
    (At : σ → Nat → Prop) : Prop where
  error_ne : error ≠ 0
  first : ∀ c, ∃ c', h.first c = (c', if names = [] then some error else none) ∧
    (names ≠ [] → At c'.state 0 ∧ c'.edi = entry 0)
  getName : ∀ c i, At c.state i → ∀ name, names[i]? = some name → ∃ c' more, h.getName c = (c', false) ∧
    At c'.state i ∧ c'.edi = c.edi ∧ c'.lfn = name ++ 0 :: more ∧ c'.secondaryDirEntry = 0 ∧ c'.validDataLength ≠ 0
  next : ∀ c i, At c.state i → i < names.length → ∃ c', h.next c = (c', if i + 1 < names.length then none else some error) ∧
    (i + 1 < names.length → At c'.state (i + 1) ∧ c'.edi = entry (i + 1))

variable {h} {path rest : List (BitVec 8)} {names : List (List (BitVec 16))} {entry : Nat → BitVec 32} {error : BitVec 32}
  {At : σ → Nat → Prop} {us : List (BitVec 16)} {t : BitVec 16}

theorem findLoopHooks_spec (henum : Enumerates h names entry error At) (hpath : Component path us t rest)
    (hnames : ∀ name ∈ names, ∀ c ∈ name, c ≠ 0 ∧ c ≠ slash) {last : List (BitVec 8)}
    (hlast : calls us.length path 0 = some (us, last)) {i : Nat} {c : Ctx σ} {fuel : Nat} (hi : i < names.length)
    (hat : At c.state i) (hedi : c.edi = entry i) (hfuel : names.length ≤ i + fuel) :
    ∃ c', match (names.drop i).findIdx? fun name => us.map upper = name.map upper with
      | some j => findLoopHooks h path fuel c =
          some (0, c', if t = slash then rest else last.drop (last.length - rest.length - 1)) ∧ c'.edi = entry (i + j)
      | none => findLoopHooks h path fuel c = some (error, c', path) := by
  induction fuel generalizing i c with
  | zero => omega
  | succ fuel ih =>
    rw [List.drop_eq_getElem_cons hi, findIdx?_cons]
    obtain ⟨c1, more, hget, hat1, hedi1, hlfn, hsecondary, hlength⟩ :=
      henum.getName c i hat names[i] (List.getElem?_eq_getElem hi)
    obtain ⟨halike, hdiffers⟩ := comparePath_spec hpath (hnames names[i] (List.getElem_mem hi)) more 0
    rw [findLoopHooks, hget]
    simp only [hsecondary, hlfn, Bool.false_or, ne_eq, not_true_eq_false, decide_false, Bool.false_eq_true, if_false]
    by_cases heq : us.map upper = names[i].map upper
    · obtain ⟨last', hlast', hcompare⟩ := halike heq
      obtain rfl : last = last' := by simpa using hlast.symm.trans hlast'
      refine ⟨c1, ?_⟩
      rw [hcompare]
      simp [heq, finishFoundHooks, hsecondary, hedi1, hedi]
    obtain ⟨c2, hnext, hat2⟩ := henum.next c1 i hat1 hi
    simp only [hdiffers heq, hnext, hlength, heq, if_false, decide_false, Bool.false_eq_true]
    by_cases hmore : i + 1 < names.length
    · obtain ⟨hat2, hedi2⟩ := hat2 hmore
      obtain ⟨c', hrest⟩ := ih hmore hat2 hedi2 (by omega)
      refine ⟨c', ?_⟩
      simp only [hmore, if_true]
      cases hidx : (names.drop (i + 1)).findIdx? fun name => us.map upper = name.map upper with
      | none => simpa [hidx] using hrest
      | some j =>
        rw [hidx] at hrest
        exact ⟨hrest.1, by rw [hrest.2, Nat.add_assoc, Nat.add_comm 1 j]⟩
    · exact ⟨c2, by simp [hmore, List.drop_eq_nil_of_le (not_lt.mp hmore)]⟩

/-- **The first name that is alike is found**, whatever the hooks do to enumerate the names. -/
theorem exfat_find_lfn_inner_first (henum : Enumerates h names entry error At)
    (hnames : ∀ name ∈ names, name.length ≤ 255 ∧ ∀ c ∈ name, c ≠ 0 ∧ c ≠ slash) (us : List (BitVec 16))
    (hlength : us.length ≤ 255) (hus : ∀ u ∈ us, u ≠ 0 ∧ u ≠ slash) (t : BitVec 16) (ht : t = 0 ∨ t = slash)
    (rest : List (BitVec 8)) (lfn : BitVec 32) (fuel : Nat) (hfuel : names.length ≤ fuel) (c : Ctx σ) :
    ∃ eax c' esi, exfatFindLfnInner h (text (us ++ [t]) ++ rest) lfn fuel c = some (eax, c', esi) ∧
      (eax = 0 ↔ ∃ name ∈ names, us.map upper = name.map upper) ∧
      (eax = 0 → ∃ i, names.findIdx? (fun name => us.map upper = name.map upper) = some i ∧ c'.edi = entry i ∧
        esi = if t = slash then rest else 0 :: rest) ∧
      (eax ≠ 0 → eax = error ∧ esi = text (us ++ [t]) ++ rest) := by
  have herror : error ≠ 0#32 := henum.error_ne
  obtain ⟨c1, hfirst, hat⟩ := henum.first { c with secondaryDirEntry := 1, needHash := 1 }
  rw [exfatFindLfnInner, hfirst]
  by_cases hempty : names = []
  · exact ⟨error, c1, _, by simp only [hempty, if_true], by simp [herror, hempty], by simp [herror], fun _ => ⟨rfl, rfl⟩⟩
  have hpath : Component (text (us ++ [t]) ++ rest) us t rest := by
    refine ⟨?_, ht, hus⟩
    have hcalls := calls_text (us ++ [t]) rest 0
    rwa [length_append, length_singleton] at hcalls
  have hlast : calls us.length (text (us ++ [t]) ++ rest) 0 = some (us, encode t ++ rest) := by
    have hcalls := calls_text us (encode t ++ rest) 0
    rwa [← append_assoc, show text us ++ encode t = text (us ++ [t]) by simp [text]] at hcalls
  have hfill := fillLfn_eq hpath (show us.length < lfnUtf16Units by unfold lfnUtf16Units; omega) lfn
  obtain ⟨hat, hedi⟩ := hat hempty
  simp only [hempty, if_false, hfill, Option.bind_eq_bind, Option.bind_some]
  obtain ⟨c', hfound⟩ := findLoopHooks_spec henum hpath (fun name hname => (hnames name hname).2) hlast
    (c := { c1 with
      currentHash := (exfatHashCalculate (us.map upper ++ [t]).dropLast).setWidth 32
      lfn := overwrite c1.lfn 0 (us.map upper ++ [t]) })
    (length_pos_iff.mpr hempty) hat hedi (show names.length ≤ 0 + fuel by omega)
  rw [List.drop_zero] at hfound
  cases hidx : names.findIdx? fun name => us.map upper = name.map upper with
  | none =>
    rw [hidx] at hfound
    have hnone : ∀ name ∈ names, us.map upper ≠ name.map upper := by simpa using findIdx?_eq_none_iff.mp hidx
    exact ⟨error, c', _, hfound, by simpa [herror] using hnone, by simp [herror], fun _ => ⟨rfl, rfl⟩⟩
  | some i =>
    rw [hidx] at hfound
    obtain ⟨hi, heq, -⟩ := findIdx?_eq_some_iff_getElem.mp hidx
    refine ⟨0, c', _, hfound.1, ?_, fun _ => ⟨i, rfl, by rw [hfound.2, Nat.zero_add], ?_⟩, fun hne => absurd rfl hne⟩
    · simpa using ⟨names[i], List.getElem_mem hi, by simpa using heq⟩
    · rcases ht with rfl | rfl
      · simp [encode, slash]
      · rfl

/-- Hooks that count through a list. -/
def listHooks (names : List (List (BitVec 16))) : Hooks Nat where
  first c := ({ c with state := 0, edi := 0 }, if names = [] then some errorFileNotFound else none)
  next c := ({ c with state := c.state + 1, edi := BitVec.ofNat 32 (32 * (c.state + 1)) },
    if c.state + 1 < names.length then none else some errorFileNotFound)
  getName c := ({ c with
    lfn := overwrite c.lfn 0 ((names[c.state]?).getD [] ++ [0])
    secondaryDirEntry := 0
    validDataLength := 1 }, false)

theorem listHooks_enumerates (names : List (List (BitVec 16))) :
    Enumerates (listHooks names) names (fun i => BitVec.ofNat 32 (32 * i)) errorFileNotFound Eq := by
  refine ⟨by decide, fun c => ⟨_, rfl, fun _ => ⟨rfl, rfl⟩⟩, ?_, ?_⟩
  · rintro c i rfl name hname
    exact ⟨_, c.lfn.drop (name.length + 1), rfl, rfl, rfl, by simp [hname, overwrite], rfl, by simp⟩
  · rintro c i rfl -
    exact ⟨_, rfl, fun _ => ⟨rfl, rfl⟩⟩

theorem exfat_find_lfn_inner_second : ∃ eax c' esi,
    exfatFindLfnInner (listHooks [[0x62], [0x41]]) (text ([0x61] ++ [slash]) ++ [0x63]) 0 2 ⟨0, 0, 0, 0, 0, [], 0⟩ =
      some (eax, c', esi) ∧ eax = 0 := by
  obtain ⟨eax, c', esi, hrun, hzero, -⟩ := exfat_find_lfn_inner_first (listHooks_enumerates [[0x62], [0x41]])
    (by simp [slash]) [0x61] (by decide) (by simp [slash]) slash (.inr rfl) [0x63] 0 2 le_rfl ⟨0, 0, 0, 0, 0, [], 0⟩
  exact ⟨eax, c', esi, hrun, hzero.mpr ⟨[0x41], by simp, by decide⟩⟩

/-! ## Any sequence of entries -/

/-- A part of a name that is not passed over. -/
def Copied (g : Names) (e : Entry) : Prop := e 0 = 0xC1 ∧ ¬ (g.hashFlag = true ∨ g.fnameExtdir = 17)

/-- A part of a name goes to the name buffer, its entry to one of the seventeen places, and a label to its twelve bytes. -/
structure Inside (g : Names) (e : Entry) : Prop where
  part : Copied g e → g.fnameExtdir < 17 ∧ ∃ k, g.esi = .lfn k ∧ k + 16 ≤ lfnUtf16Units
  label : e 0 = 0x83 → (utf16to8String e.units 12).1.length ≤ 12

variable {g : Names} {e : Entry} {es : List Entry}

theorem inside_of_part (h : Copied g e → g.fnameExtdir < 17 ∧ ∃ k, g.esi = .lfn k ∧ k + 16 ≤ lfnUtf16Units) : Inside g e :=
  ⟨h, fun _ => length_utf16to8String_le e.units (show (12 : BitVec 32).toNat ≤ 2 ^ 31 by decide)⟩

/-- The parts of the name go to a place that `exFAT_get_name` has set. -/
structure Reserved (path : List (BitVec 8)) (g : Names) : Prop where
  path : g.path = path
  lfn : g.lfn.length = lfnUtf16Units
  few : g.fnameExtdir ≤ 17
  esi : ∃ k, g.esi = .lfn k ∧ k ≤ 15 * g.fnameExtdir

theorem matchEntry_reserve (he : e 0 = 0x85 ∨ e 0 = 0xC0) (hlfn : g.lfn.length = lfnUtf16Units)
    (hfew : g.fnameExtdir ≤ 17) : Reserved g.path (matchEntry g e).1 := by
  have hset : (g.lfn.set 260 0).length = lfnUtf16Units := by rw [length_set, hlfn]
  unfold matchEntry getName
  rcases he with he | he <;> simp only [he]
  · exact ⟨rfl, hset, Nat.zero_le 17, 0, rfl, le_rfl⟩
  · exact ⟨rfl, hset, hfew, 0, rfl, Nat.zero_le _⟩

theorem matchEntry_skips (hfile : ¬ (e 0 = 0x85 ∨ e 0 = 0xC0)) (hskip : ¬ Copied g e) : (matchEntry g e).1 = g := by
  obtain ⟨h85, hC0⟩ := not_or.mp hfile
  unfold matchEntry getName
  rw [if_neg h85, if_neg hC0]
  split_ifs with h0 hpart hflag hfull
  · rfl
  · rfl
  · rfl
  · exact absurd ⟨hpart, not_or.mpr ⟨hflag, hfull⟩⟩ hskip
  · rfl

theorem Reserved.inside (h : Reserved path g) (e : Entry) : Inside g e := by
  obtain ⟨k, hesi, hk⟩ := h.esi
  have hfew := h.few
  refine inside_of_part fun hcopied => ?_
  have hne := (not_or.mp hcopied.2).2
  refine ⟨by omega, k, hesi, ?_⟩
  unfold lfnUtf16Units
  omega

theorem Reserved.step (h : Reserved path g) (e : Entry) : Reserved path (matchEntry g e).1 := by
  by_cases hfile : e 0 = 0x85 ∨ e 0 = 0xC0
  · rw [← h.path]
    exact matchEntry_reserve hfile h.lfn h.few
  by_cases hcopied : Copied g e
  · obtain ⟨hlt, k, hesi, hroom⟩ := (h.inside e).part hcopied
    obtain ⟨hpart, hpasses⟩ := hcopied
    have hlength : (overwrite g.lfn k (e.units ++ [0])).length = lfnUtf16Units := by
      rw [length_overwrite, h.lfn]
      rwa [length_append, length_units, h.lfn]
    obtain ⟨k', hesi', hk⟩ := h.esi
    obtain rfl : k = k' := Place.lfn.inj (hesi.symm.trans hesi')
    unfold matchEntry getName
    simp only [hpart, Names.copy, hesi]
    rw [if_neg (by decide), if_neg (by decide), if_neg (by decide), if_pos trivial, if_neg (not_or.mp hpasses).1,
      if_neg (not_or.mp hpasses).2]
    split_ifs
    · exact ⟨h.path, hlength, hlt, k, rfl, by dsimp only; omega⟩
    · exact ⟨h.path, hlength, hlt, k + 15, rfl, by dsimp only; omega⟩
  · rwa [matchEntry_skips hfile hcopied]

end Kolibri.Exfat
