import Kolibri.Fs.Exfat
import Kolibri.Lib.Run

/-!
# Which entries of an exFAT directory end the search

A search in a list of entries, without the sectors in which they stand.
-/

namespace Kolibri.Exfat

open Registers Run Unicode List Option

/-! ## Letters -/

def upper (c : BitVec 16) : BitVec 16 := low16 (utf16ToUpper (c.setWidth 32))

theorem low16_sub (x y : BitVec 32) : low16 (x - y) = low16 x - low16 y := by
  apply BitVec.eq_of_toNat_eq
  simp only [low16, BitVec.toNat_setWidth, BitVec.toNat_sub]
  omega

theorem low16_utf16ToUpper (eax : BitVec 32) : low16 (utf16ToUpper eax) = upper (low16 eax) := by
  have hlow : low16 ((low16 eax).setWidth 32) = low16 eax := by
    apply BitVec.eq_of_toNat_eq
    simp [low16]
  unfold upper utf16ToUpper
  simp only [hlow]
  split_ifs <;> simp only [low16_sub, hlow]

theorem toNat_upper (c : BitVec 16) : (upper c).toNat =
    if 0x61 ≤ c.toNat ∧ c.toNat ≤ 0x7A ∨ 0x430 ≤ c.toNat ∧ c.toNat < 0x450 then c.toNat - 32
    else if 0x450 ≤ c.toNat ∧ c.toNat < 0x460 then c.toNat - 80
    else c.toNat := by
  have hlow : low16 (c.setWidth 32) = c := by
    apply BitVec.eq_of_toNat_eq
    simp [low16]
  unfold upper utf16ToUpper
  simp only [hlow, BitVec.lt_def, BitVec.le_def]
  split_ifs <;> simp only [low16_sub, hlow] <;> simp_all [low16] <;> omega

theorem upper_eq_zero_iff (c : BitVec 16) : upper c = 0 ↔ c = 0 := by
  rw [← BitVec.toNat_inj, ← BitVec.toNat_inj, toNat_upper]
  split_ifs <;> simp only [BitVec.ofNat_eq_ofNat, BitVec.toNat_ofNat] <;> omega

theorem upper_eq_slash_iff (c : BitVec 16) : upper c = slash ↔ c = slash := by
  rw [← BitVec.toNat_inj, ← BitVec.toNat_inj, toNat_upper]
  have hslash : slash.toNat = 0x2F := rfl
  split_ifs <;> omega

/-! ## The path -/

structure Component (path : List (BitVec 8)) (us : List (BitVec 16)) (t : BitVec 16) (rest : List (BitVec 8)) : Prop where
  decoded : calls (us.length + 1) path 0 = some (us ++ [t], rest)
  ends : t = 0 ∨ t = slash
  inside : ∀ u ∈ us, u ≠ 0 ∧ u ≠ slash

theorem calls_succ {n : Nat} {path rest : List (BitVec 8)} {u : BitVec 16} {us : List (BitVec 16)}
    (h : calls (n + 1) path 0 = some (u :: us, rest)) (eax : BitVec 32) :
    ∃ eax' esi, stepUtf16 path eax = some (eax', esi) ∧ low16 eax' = upper u ∧ calls n esi 0 = some (us, rest) ∧
      ∀ m vs last, calls m esi 0 = some (vs, last) → calls (m + 1) path 0 = some (u :: vs, last) := by
  rw [calls_eax _ _ 0 eax, calls, bind_eq_bind, bind_eq_some_iff] at h
  obtain ⟨⟨out, esi⟩, hcall, h⟩ := h
  rw [bind_eq_bind, bind_eq_some_iff] at h
  obtain ⟨⟨us', rest'⟩, hrest, h⟩ := h
  obtain ⟨⟨rfl, rfl⟩, rfl⟩ := h
  refine ⟨utf16ToUpper out, esi, ?_, low16_utf16ToUpper out, ?_, fun m vs last hm => ?_⟩
  · rw [stepUtf16, hcall]
    rfl
  · rw [calls_eax _ _ 0 out]
    exact hrest
  · rw [calls_eax _ _ 0 out] at hm
    rw [calls_eax _ _ 0 eax, calls, hcall]
    simp [hm]

variable {path rest : List (BitVec 8)} {us : List (BitVec 16)} {t u : BitVec 16}

theorem Component.step (h : Component path (u :: us) t rest) (eax : BitVec 32) :
    ∃ eax' esi, stepUtf16 path eax = some (eax', esi) ∧ low16 eax' = upper u ∧ Component esi us t rest ∧
      ∀ m vs last, calls m esi 0 = some (vs, last) → calls (m + 1) path 0 = some (u :: vs, last) := by
  obtain ⟨eax', esi, hstep, hlow, hcalls, hmore⟩ := calls_succ h.decoded eax
  exact ⟨eax', esi, hstep, hlow, ⟨hcalls, h.ends, fun v hv => h.inside v (mem_cons_of_mem u hv)⟩, hmore⟩

theorem Component.last (h : Component path [] t rest) (eax : BitVec 32) :
    ∃ eax', stepUtf16 path eax = some (eax', rest) ∧ low16 eax' = t := by
  obtain ⟨eax', esi, hstep, hlow, hcalls, -⟩ := calls_succ h.decoded eax
  have hupper : upper t = t := by
    rcases h.ends with rfl | rfl
    · exact (upper_eq_zero_iff 0).mpr rfl
    · exact (upper_eq_slash_iff slash).mpr rfl
  have hesi : esi = rest := by simpa [calls] using hcalls
  exact ⟨eax', by rw [hstep, hesi], hlow.trans hupper⟩

theorem fillLfn_eq (h : Component path us t rest) {room : Nat} (hroom : us.length < room) (eax : BitVec 32) :
    fillLfn room path eax = some (us.map upper ++ [t]) := by
  induction us generalizing path room eax with
  | nil =>
    obtain ⟨room, rfl⟩ := Nat.exists_eq_succ_of_ne_zero (Nat.ne_of_gt hroom)
    obtain ⟨eax', hstep, hlow⟩ := h.last eax
    rw [fillLfn, hstep]
    simp only [bind_eq_bind, bind_some, hlow]
    exact if_pos h.ends
  | cons u us ih =>
    obtain ⟨room, rfl⟩ := Nat.exists_eq_succ_of_ne_zero (Nat.ne_of_gt (Nat.zero_lt_of_lt hroom))
    rw [length_cons] at hroom
    obtain ⟨eax', esi, hstep, hlow, hmore, -⟩ := h.step eax
    obtain ⟨hzero, hslash⟩ := h.inside u mem_cons_self
    rw [fillLfn, hstep]
    simp only [bind_eq_bind, bind_some, hlow, upper_eq_zero_iff, upper_eq_slash_iff]
    rw [if_neg (not_or.mpr ⟨hzero, hslash⟩), ih hmore (by omega)]
    rfl

/-- Behind a slash, or back at the zero from `last`. -/
theorem comparePath_spec (h : Component path us t rest) {name : List (BitVec 16)}
    (hname : ∀ c ∈ name, c ≠ 0 ∧ c ≠ slash) (more : List (BitVec 16)) (eax : BitVec 32) :
    (us.map upper = name.map upper → ∃ last, calls us.length path 0 = some (us, last) ∧
        comparePath (name ++ 0 :: more) path eax =
          some (some (if t = slash then rest else last.drop (last.length - rest.length - 1)))) ∧
      (us.map upper ≠ name.map upper → comparePath (name ++ 0 :: more) path eax = some none) := by
  have hup : ∀ (x : BitVec 32) c, low16 (utf16ToUpper (setLow16 x c)) = upper c := by
    intro x c
    rw [low16_utf16ToUpper, low16_setLow16]
  have hzero : upper 0 = 0 := (upper_eq_zero_iff 0).mpr rfl
  induction name generalizing us path eax with
  | nil =>
    rw [nil_append, comparePath]
    cases us with
    | nil =>
      obtain ⟨eax', hstep, hlow⟩ := h.last eax
      rw [hstep]
      simp only [bind_eq_bind, bind_some, hup, hzero, hlow]
      refine ⟨fun _ => ⟨path, rfl, ?_⟩, fun hne => absurd rfl hne⟩
      rcases h.ends with rfl | rfl
      · simp [slash]
      · exact (if_pos (by decide)).trans (if_pos ⟨rfl, trivial⟩)
    | cons u us =>
      obtain ⟨eax', esi, hstep, hlow, -⟩ := h.step eax
      obtain ⟨hu, hslash⟩ := h.inside u mem_cons_self
      rw [hstep]
      refine ⟨fun heq => by simp at heq, fun _ => ?_⟩
      simp only [bind_eq_bind, bind_some, hup, hzero, hlow, upper_eq_slash_iff, hslash, false_and, if_false]
      exact if_pos fun heq => hu ((upper_eq_zero_iff u).mp heq.symm)
  | cons c name ih =>
    obtain ⟨hc, hcslash⟩ := hname c mem_cons_self
    rw [cons_append, comparePath]
    cases us with
    | nil =>
      obtain ⟨eax', hstep, hlow⟩ := h.last eax
      rw [hstep]
      refine ⟨fun heq => by simp at heq, fun _ => ?_⟩
      simp only [bind_eq_bind, bind_some, hup, hlow, upper_eq_zero_iff, hc, and_false, if_false]
      refine if_pos fun heq => ?_
      rcases h.ends with rfl | rfl
      · exact hc ((upper_eq_zero_iff c).mp heq)
      · exact hcslash ((upper_eq_slash_iff c).mp heq)
    | cons u us =>
      obtain ⟨eax', esi, hstep, hlow, hmore, hcalls⟩ := h.step eax
      obtain ⟨hu, hslash⟩ := h.inside u mem_cons_self
      rw [hstep]
      simp only [bind_eq_bind, bind_some, hup, hlow, upper_eq_slash_iff, hslash, false_and, if_false,
        upper_eq_zero_iff, hc, map_cons, ne_eq, List.cons.injEq]
      by_cases hcu : upper c = upper u
      · rw [if_neg (not_not.mpr hcu)]
        simp only [hcu, true_and]
        obtain ⟨heq, hne⟩ := ih hmore (fun d hd => hname d (mem_cons_of_mem c hd)) _
        refine ⟨fun h => ?_, hne⟩
        obtain ⟨last, hlast, hcompare⟩ := heq h
        exact ⟨last, hcalls _ _ _ hlast, hcompare⟩
      · rw [if_pos hcu]
        exact ⟨fun heq => absurd heq.1.symm hcu, fun _ => rfl⟩

/-! ## Entry sets -/

structure FileSet where
  name : List (BitVec 16)
  primary : Entry
  stream : Entry
  parts : List Entry
  pad : Nat
  primary_type : primary 0 = 0x85
  secondary_count : (primary 1).toNat = parts.length + 1
  stream_type : stream 0 = 0xC0
  name_hash : (stream 5 ++ stream 4 : BitVec 16) = exfatHashCalculate (name.map upper)
  part_type : ∀ e ∈ parts, e 0 = 0xC1
  units : parts.flatMap Entry.units = name ++ List.replicate pad 0
  name_pos : 0 < name.length
  name_le : name.length ≤ 255
  pad_lt : pad < 15
  letters : ∀ c ∈ name, c ≠ 0 ∧ c ≠ slash

def FileSet.entries (s : FileSet) : List Entry := s.primary :: s.stream :: s.parts

inductive Item
  | file (s : FileSet)
  | other (e : Entry) (h : e 0 ≠ 0x85 ∧ e 0 ≠ 0xC0 ∧ e 0 ≠ 0xC1)

def Item.entries : Item → List Entry
  | .file s => s.entries
  | .other e _ => [e]

theorem length_units (e : Entry) : e.units.length = 15 := length_ofFn

theorem length_flatMap_units (es : List Entry) : (es.flatMap Entry.units).length = 15 * es.length := by
  induction es with
  | nil => rfl
  | cons e es ih =>
    rw [flatMap_cons, length_append, length_units, ih, length_cons]
    omega

theorem FileSet.parts_bounds (s : FileSet) : 0 < s.parts.length ∧ s.parts.length ≤ 17 := by
  have hlength := congrArg List.length s.units
  rw [length_flatMap_units, length_append, length_replicate] at hlength
  have hpos := s.name_pos
  have hle := s.name_le
  have hpad := s.pad_lt
  omega

/-! ## The search -/

def Passes (g : Names) (e : Entry) : Prop := (matchEntry g e).2 = some none

def Quiet (g : Names) (es : List Entry) : Prop := Allowed matchEntry Passes g es

structure Ready (path : List (BitVec 8)) (us : List (BitVec 16)) (g : Names) : Prop where
  path : g.path = path
  needHash : g.needHash = true
  currentHash : g.currentHash = (exfatHashCalculate (us.map upper)).setWidth 32
  lfn : g.lfn.length = lfnUtf16Units

variable {g : Names} {e : Entry} {s : FileSet}

theorem matchEntry_of_carry {g' : Names} (h : getName g e = (g', true)) : matchEntry g e = (g', some none) := by
  rw [matchEntry, h]
  rfl

theorem matchEntry_other (h : e 0 ≠ 0x85 ∧ e 0 ≠ 0xC0 ∧ e 0 ≠ 0xC1) : matchEntry g e = (g, some none) := by
  apply matchEntry_of_carry
  unfold getName
  rw [if_neg h.1, if_neg h.2.1, if_neg h.2.2, ite_self]

structure Gathering (g : Names) (units : List (BitVec 16)) (parts : Nat) : Prop where
  hashFlag : g.hashFlag = false
  fnameExtdir : units.length = 15 * g.fnameExtdir
  secondary : g.secondaryDirEntry.toNat = parts
  few : g.fnameExtdir + parts ≤ 17
  esi : g.esi = .lfn units.length
  units : g.lfn.take units.length = units
  length : g.lfn.length = lfnUtf16Units

structure Kept (g g' : Names) : Prop where
  path : g'.path = g.path
  needHash : g'.needHash = g.needHash
  currentHash : g'.currentHash = g.currentHash
  fileDirEntry : g'.fileDirEntry = g.fileDirEntry
  strExtDirEntry : g'.strExtDirEntry = g.strExtDirEntry

theorem Kept.trans {g' g'' : Names} (h : Kept g g') (h' : Kept g' g'') : Kept g g'' :=
  ⟨h'.path.trans h.path, h'.needHash.trans h.needHash, h'.currentHash.trans h.currentHash,
    h'.fileDirEntry.trans h.fileDirEntry, h'.strExtDirEntry.trans h.strExtDirEntry⟩

theorem Ready.kept {g' : Names} (h : Ready path us g) (hkept : Kept g g') (hlength : g'.lfn.length = lfnUtf16Units) :
    Ready path us g' :=
  ⟨hkept.path.trans h.path, hkept.needHash.trans h.needHash, hkept.currentHash.trans h.currentHash, hlength⟩

theorem length_overwrite {β : Type*} {l xs : List β} {i : Nat} (h : i + xs.length ≤ l.length) :
    (overwrite l i xs).length = l.length := by
  simp only [overwrite, length_append, length_take, length_drop]
  omega

section Parts

variable {units : List (BitVec 16)} {k : Nat}

theorem getName_part (h : Gathering g units (k + 1)) (he : e 0 = 0xC1) :
    ∃ g', getName g e = (if k = 0 then (g', false) else ({ g' with esi := .lfn (units.length + 15) }, true)) ∧
      Kept g g' ∧ g'.secondaryDirEntry.toNat = k ∧ g'.hashFlag = false ∧ g'.fnameExtdir = g.fnameExtdir + 1 ∧
      g'.lfn.length = lfnUtf16Units ∧ ∃ more, g'.lfn = units ++ e.units ++ 0 :: more := by
  have hfew := h.few
  have hcount := h.fnameExtdir
  have hsub : (g.secondaryDirEntry - 1).toNat = k := by
    have hsecondary := h.secondary
    bv_omega
  have hzero : g.secondaryDirEntry - 1 = 0 ↔ k = 0 := by
    rw [← BitVec.toNat_inj, hsub]
    rfl
  have hlength : (e.units ++ [0]).length = 16 := by rw [length_append, length_units, length_singleton]
  let g' : Names :=
    { g with
      fnameExtdir := g.fnameExtdir + 1
      lfn := overwrite g.lfn units.length (e.units ++ [0])
      secondaryDirEntry := g.secondaryDirEntry - 1
      hashFlag := false
      esi := .lfn units.length }
  refine ⟨g', ?_, ⟨rfl, rfl, rfl, rfl, rfl⟩, hsub, rfl, rfl, ?_, ?_⟩
  · unfold getName
    simp only [he, h.hashFlag, Names.copy, h.esi, Place.next, hzero]
    rw [if_neg (by decide), if_neg (by decide), if_neg (by decide), if_pos trivial, if_neg (by decide), if_neg (by omega)]
  · change (overwrite g.lfn units.length (e.units ++ [0])).length = _
    rw [length_overwrite, h.length]
    rw [hlength, h.length, lfnUtf16Units]
    omega
  · refine ⟨g.lfn.drop (units.length + 16), ?_⟩
    change overwrite g.lfn units.length (e.units ++ [0]) = _
    rw [overwrite, h.units, hlength]
    simp

theorem gather_parts {es : List Entry} (hes : es ≠ []) (htype : ∀ e ∈ es, e 0 = 0xC1)
    (h : Gathering g units es.length) :
    Quiet g es.dropLast ∧ ∃ g' more, matchEntry (final matchEntry g es.dropLast) (es.getLast hes) =
        (g', comparePath (units ++ es.flatMap Entry.units ++ 0 :: more) g.path 0) ∧
      Kept g g' ∧ g'.secondaryDirEntry = 0 ∧ g'.lfn.length = lfnUtf16Units := by
  induction es generalizing g units with
  | nil => exact absurd rfl hes
  | cons e es ih =>
    obtain ⟨g', hget, hkept, hsecondary, hflag, hcount, hlength, more, hlfn⟩ :=
      getName_part h (htype e mem_cons_self)
    cases es with
    | nil =>
      rw [length_nil, if_pos rfl] at hget
      have hzero : g'.secondaryDirEntry = 0 := BitVec.eq_of_toNat_eq hsecondary
      refine ⟨trivial, g', more, ?_, hkept, hzero, hlength⟩
      change matchEntry g e = _
      rw [matchEntry, hget]
      simp only [hzero, hkept.path, hlfn]
      rw [flatMap_singleton]
      rfl
    | cons e' es =>
      have hnext : Gathering { g' with esi := .lfn (units.length + 15) } (units ++ e.units) (e' :: es).length := by
        have hunits := h.fnameExtdir
        have hfew := h.few
        have hboth : (units ++ e.units).length = units.length + 15 := by rw [length_append, length_units]
        refine ⟨hflag, ?_, hsecondary, ?_, by rw [hboth], ?_, hlength⟩
        · rw [hboth]
          change units.length + 15 = 15 * g'.fnameExtdir
          omega
        · change g'.fnameExtdir + _ ≤ 17
          rw [length_cons] at hfew
          omega
        · change g'.lfn.take _ = _
          rw [hlfn]
          exact take_left' rfl
      obtain ⟨hquiet, g'', more', hmatch, hkept', hzero, hlength'⟩ :=
        ih (by simp) (fun d hd => htype d (mem_cons_of_mem e hd)) hnext
      have hstep := matchEntry_of_carry hget
      rw [dropLast_cons_cons, getLast_cons (by simp)]
      refine ⟨⟨by rw [Passes, hstep], by rw [hstep]; exact hquiet⟩, g'', more', ?_, ?_, hzero, hlength'⟩
      · rw [final_cons, hstep, hmatch]
        simp [hkept.path]
      · exact hkept.trans ⟨hkept'.path, hkept'.needHash, hkept'.currentHash, hkept'.fileDirEntry, hkept'.strExtDirEntry⟩

end Parts

/-! ## Items -/

theorem file_head (hready : Ready path us g) (s : FileSet) :
    Quiet g [s.primary, s.stream] ∧ ∃ g', final matchEntry g [s.primary, s.stream] = g' ∧ Ready path us g' ∧
      g'.fileDirEntry = s.primary ∧ g'.strExtDirEntry = s.stream ∧
      (g'.hashFlag = true ∧ us.map upper ≠ s.name.map upper ∨ Gathering g' [] s.parts.length) := by
  let g1 : Names :=
    { g with
      fnameExtdir := 0
      hashFlag := false
      secondaryDirEntry := (s.primary 1).setWidth 32 - 1
      fileDirEntry := s.primary }
  have hprimary : matchEntry g s.primary = (g1.reserve, some none) := by
    apply matchEntry_of_carry
    unfold getName
    rw [if_neg (by rw [s.primary_type]; decide), if_pos s.primary_type]
  let differs : Bool := g.needHash && (s.stream 5 ++ s.stream 4 : BitVec 16).setWidth 32 ≠ g.currentHash
  have hstream : matchEntry g1.reserve s.stream =
      ({ g1.reserve with hashFlag := differs, strExtDirEntry := s.stream }.reserve, some none) := by
    apply matchEntry_of_carry
    unfold getName
    rw [if_neg (by rw [s.stream_type]; decide), if_neg (by rw [s.stream_type]; decide), if_pos s.stream_type]
    rfl
  have hlength : ((g.lfn.set 260 0).set 260 0).length = lfnUtf16Units := by
    rw [length_set, length_set, hready.lfn]
  refine ⟨⟨by rw [Passes, hprimary], by rw [hprimary, Passes, hstream], trivial⟩, _, rfl, ?_⟩
  rw [final_cons, hprimary, final_cons, hstream, final_nil]
  refine ⟨⟨hready.path, hready.needHash, hready.currentHash, hlength⟩, rfl, rfl, ?_⟩
  cases hdiffers : differs with
  | true =>
    refine .inl ⟨rfl, fun heq => ?_⟩
    simp only [differs, hready.needHash, hready.currentHash, s.name_hash, Bool.true_and, ne_eq, heq,
      not_true_eq_false, decide_false, Bool.false_eq_true] at hdiffers
  | false =>
    obtain ⟨-, hle⟩ := s.parts_bounds
    have hcount : ((s.primary 1).setWidth 32 - 1).toNat = s.parts.length := by
      have hsecondary := s.secondary_count
      bv_omega
    exact .inr ⟨rfl, rfl, hcount, by change 0 + _ ≤ 17; omega, rfl, rfl, hlength⟩

theorem parts_skipped {es : List Entry} (htype : ∀ e ∈ es, e 0 = 0xC1) (hflag : g.hashFlag = true) :
    Quiet g es ∧ final matchEntry g es = g := by
  induction es with
  | nil => exact ⟨trivial, rfl⟩
  | cons e es ih =>
    have hstep : matchEntry g e = (g, some none) := by
      have he := htype e mem_cons_self
      apply matchEntry_of_carry
      unfold getName
      rw [if_neg (by rw [he]; decide), if_neg (by rw [he]; decide), if_neg (by rw [he]; decide), if_pos he, if_pos hflag]
    obtain ⟨hquiet, hfinal⟩ := ih fun d hd => htype d (mem_cons_of_mem e hd)
    exact ⟨⟨by rw [Passes, hstep], by rw [hstep]; exact hquiet⟩, by rw [final_cons, hstep, hfinal]⟩

theorem FileSet.parts_ne_nil (s : FileSet) : s.parts ≠ [] := ne_nil_of_length_pos s.parts_bounds.1

theorem FileSet.units_append (s : FileSet) (more : List (BitVec 16)) :
    ∃ more', s.parts.flatMap Entry.units ++ 0 :: more = s.name ++ 0 :: more' := by
  rw [s.units, append_assoc]
  cases s.pad with
  | zero => exact ⟨more, rfl⟩
  | succ pad => exact ⟨List.replicate pad 0 ++ 0 :: more, rfl⟩

theorem file_passes (hready : Ready path us g) (hpath : Component path us t rest)
    (hne : us.map upper ≠ s.name.map upper) : Quiet g s.entries ∧ Ready path us (final matchEntry g s.entries) := by
  obtain ⟨hquiet, g', hhead, hready', -, -, hskip | hgather⟩ := file_head hready s
  · obtain ⟨hparts, hfinal⟩ := parts_skipped s.part_type hskip.1
    rw [← hhead] at hparts
    rw [show s.entries = [s.primary, s.stream] ++ s.parts from rfl]
    refine ⟨allowed_append.mpr ⟨hquiet, hparts⟩, ?_⟩
    rwa [final_append, hhead, hfinal]
  obtain ⟨hparts, g'', more, hmatch, hkept, -, hlength⟩ := gather_parts s.parts_ne_nil s.part_type hgather
  obtain ⟨more', hunits⟩ := s.units_append more
  rw [nil_append, hunits, hready'.path, (comparePath_spec hpath s.letters more' 0).2 hne] at hmatch
  have hsplit : s.entries = [s.primary, s.stream] ++ (s.parts.dropLast ++ [s.parts.getLast s.parts_ne_nil]) := by
    rw [dropLast_concat_getLast]
    rfl
  rw [hsplit]
  rw [← hhead] at hparts hmatch
  refine ⟨allowed_append.mpr ⟨hquiet, allowed_append.mpr ⟨hparts, ?_, trivial⟩⟩, ?_⟩
  · rw [Passes, hmatch]
  · rw [final_append, final_append, final_cons, hmatch]
    exact hready'.kept hkept hlength

theorem file_found (hready : Ready path us g) (hpath : Component path us t rest)
    (heq : us.map upper = s.name.map upper) :
    ∃ init last g' esi, s.entries = init ++ [last] ∧ Quiet g init ∧
      matchEntry (final matchEntry g init) last = (g', some (some esi)) ∧ g'.secondaryDirEntry = 0 ∧
      g'.fileDirEntry = s.primary ∧ g'.strExtDirEntry = s.stream := by
  obtain ⟨hquiet, g', hhead, hready', hfile, hstream, hskip | hgather⟩ := file_head hready s
  · exact absurd heq hskip.2
  obtain ⟨hparts, g'', more, hmatch, hkept, hzero, -⟩ := gather_parts s.parts_ne_nil s.part_type hgather
  obtain ⟨more', hunits⟩ := s.units_append more
  obtain ⟨last, -, hcompare⟩ := (comparePath_spec hpath s.letters more' 0).1 heq
  rw [nil_append, hunits, hready'.path, hcompare] at hmatch
  rw [← hhead] at hparts hmatch
  refine ⟨_, _, g'', _, ?_, allowed_append.mpr ⟨hquiet, hparts⟩, hmatch, hzero, hkept.fileDirEntry.trans hfile,
    hkept.strExtDirEntry.trans hstream⟩
  rw [append_assoc, dropLast_concat_getLast]
  rfl

theorem items_pass {items : List Item} (hready : Ready path us g) (hpath : Component path us t rest)
    (hne : ∀ s, .file s ∈ items → us.map upper ≠ s.name.map upper) :
    Quiet g (items.flatMap Item.entries) ∧ Ready path us (final matchEntry g (items.flatMap Item.entries)) := by
  induction items generalizing g with
  | nil => exact ⟨trivial, hready⟩
  | cons item items ih =>
    have hitem : Quiet g item.entries ∧ Ready path us (final matchEntry g item.entries) := by
      cases item with
      | file s => exact file_passes hready hpath (hne s mem_cons_self)
      | other e h =>
        have hstep : matchEntry g e = (g, some none) := matchEntry_other h
        refine ⟨⟨by rw [Passes, hstep], trivial⟩, ?_⟩
        change Ready path us (matchEntry g e).1
        rwa [hstep]
    obtain ⟨hquiet, hfinal⟩ := ih hitem.2 fun s hs => hne s (mem_cons_of_mem _ hs)
    rw [flatMap_cons, final_append]
    exact ⟨allowed_append.mpr ⟨hitem.1, hquiet⟩, hfinal⟩

end Kolibri.Exfat
