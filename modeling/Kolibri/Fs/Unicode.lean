import Kolibri.Lib.Registers

/-! # UTF-8 and UTF-16 (`utf8to16.rs`, `utf16_to_8.rs`)

The decoder shifts its bytes through `al`, `ax` and `eax`.
-/

namespace Kolibri.Unicode

open Registers BitVec Option List

/-! ## The decoder -/

def shlAl (al : BitVec 8) : BitVec 8 × Bool := (al <<< 2, al.getLsbD 6)

def shlAx8 (eax : BitVec 32) (b : BitVec 8) : BitVec 32 := setLow8 (setLow16 eax (low16 eax <<< 8)) b

/-- From `@@` on. `none` means that the text ends before the character. -/
def gather : List (BitVec 8) → BitVec 32 → Option (BitVec 32 × List (BitVec 8))
  | [], _ => none
  | b :: rest, eax =>
    let eax := shlAx8 eax b
    if b.getLsbD 7 = false then some (setHigh8 eax 0, rest)
    else
      let (al, cf) := shlAl b
      let eax := setLow8 eax al
      if cf then gather rest eax
      else
        let eax := setHigh8 eax (high8 eax >>> 2)
        let ax := low16 eax
        let eax := setLow16 eax (ax <<< 3)
        if ax.getLsbD 13 = false then some (setLow16 eax (low16 eax >>> 5), rest)
        else
          let eax := eax <<< 3
          match rest with
          | [] => none
          | b :: rest =>
            let eax := setLow8 eax b
            if b.getLsbD 7 = false then some (setHigh8 eax 0, rest)
            else
              let (al, cf) := shlAl b
              let eax := setLow8 eax al
              if cf then gather rest eax else some (eax >>> 2, rest)

def utf8to16 : List (BitVec 8) → BitVec 32 → Option (BitVec 32 × List (BitVec 8))
  | [], _ => none
  | b :: rest, eax =>
    let eax := setLow8 eax b
    if b.getLsbD 7 = false then some (setHigh8 eax 0, rest)
    else
      let (al, cf) := shlAl b
      let eax := setLow8 eax al
      -- A byte that continues no character is passed over.
      if cf then gather rest eax else utf8to16 rest eax

/-! ## The encoder -/

def decEcx (ecx : BitVec 32) : BitVec 32 × Bool := (ecx - 1, (ecx - 1).getLsbD 31)

def encode2byte (c : BitVec 32) : List (BitVec 8) :=
  let eax := c <<< 2
  let eax := setLow8 eax (low8 eax >>> 2)
  let eax := eax ||| 0xC080#32
  -- `xchg al, ah`
  [high8 eax, low8 eax]

def encode3byte (c : BitVec 32) : List (BitVec 8) :=
  let eax := c <<< 4
  let eax := setLow16 eax (low16 eax >>> 2)
  let eax := setLow8 eax (low8 eax >>> 2)
  let eax := eax ||| 0xE08080#32
  -- `bswap`, `shr eax, 8`
  [(eax >>> 16).setWidth 8, high8 eax, low8 eax]

/-- The bytes and the rest of the budget, or the budget if it does not suffice. -/
def utf16to8 (ax : BitVec 16) (ecx : BitVec 32) : Option (List (BitVec 8)) × BitVec 32 :=
  let eax := ax.setWidth 32
  let (ecx, sf) := decEcx ecx
  if sf then (none, ecx)
  else if eax < 0x80 then (some [low8 eax], ecx)
  else
    let (ecx, sf) := decEcx ecx
    if sf then (none, ecx)
    else if eax < 0x800 then (some (encode2byte eax), ecx)
    else
      let (ecx, sf) := decEcx ecx
      if sf then (none, ecx) else (some (encode3byte eax), ecx)

open Nat

/-- The bytes that were written, the rest of the budget and whether the zero was reached. -/
def utf16to8String : List (BitVec 16) → BitVec 32 → List (BitVec 8) × BitVec 32 × Bool
  | [], ecx => ([], ecx, false)
  | ax :: rest, ecx =>
    match utf16to8 ax ecx with
    | (none, ecx) => ([], ecx, false)
    | (some bytes, ecx) =>
      if ax = 0 then (bytes, ecx, true)
      else
        let (more, ecx, ok) := utf16to8String rest ecx
        (bytes ++ more, ecx, ok)

/-! ## Branches of the decoder -/

/-- `eax` behind `shl ax, 3`, from the byte that ends a character of two bytes on. -/
def shiftedTail (eax : BitVec 32) (b : BitVec 8) : BitVec 32 :=
  let eax := setLow8 (shlAx8 eax b) (b <<< 2)
  let eax := setHigh8 eax (high8 eax >>> 2)
  setLow16 eax (low16 eax <<< 3)

def carries (eax : BitVec 32) (b : BitVec 8) : Bool :=
  let eax := setLow8 (shlAx8 eax b) (b <<< 2)
  (low16 (setHigh8 eax (high8 eax >>> 2))).getLsbD 13

section Gather

variable {b b' : BitVec 8} {rest : List (BitVec 8)} (eax : BitVec 32)

/-- The end of a character of three bytes. -/
def gatherLong (eax : BitVec 32) : List (BitVec 8) → Option (BitVec 32 × List (BitVec 8))
  | [] => none
  | b :: rest =>
    if b.getLsbD 7 = false then some (setHigh8 (setLow8 eax b) 0, rest)
    else if b.getLsbD 6 then gather rest (setLow8 (setLow8 eax b) (b <<< 2))
    else some (setLow8 (setLow8 eax b) (b <<< 2) >>> 2, rest)

theorem gather_cons : gather (b :: rest) eax = if b.getLsbD 7 = false then some (setHigh8 (shlAx8 eax b) 0, rest)
    else if b.getLsbD 6 then gather rest (setLow8 (shlAx8 eax b) (b <<< 2))
    else if carries eax b = false then some (setLow16 (shiftedTail eax b) (low16 (shiftedTail eax b) >>> 5), rest)
    else gatherLong (shiftedTail eax b <<< 3) rest := by
  cases rest <;> rfl

end Gather

/-! ## Characters of two and three bytes -/

def lead2 (x : BitVec 5) : BitVec 8 := x.setWidth 8 ||| 0xC0#8

def lead3 (w : BitVec 4) : BitVec 8 := w.setWidth 8 ||| 0xE0#8

def tail (y : BitVec 6) : BitVec 8 := y.setWidth 8 ||| 0x80#8

def encode (c : BitVec 16) : List (BitVec 8) :=
  if c < 0x80 then [c.setWidth 8]
  else if c < 0x800 then [lead2 (c.extractLsb' 6 5), tail (c.extractLsb' 0 6)]
  else [lead3 (c.extractLsb' 12 4), tail (c.extractLsb' 6 6), tail (c.extractLsb' 0 6)]

theorem exists_setWidth {c : BitVec 16} {k : Nat} (h : c.toNat < 2 ^ k) : ∃ d : BitVec k, c = d.setWidth 16 := by
  refine ⟨c.setWidth k, eq_of_toNat_eq ?_⟩
  rw [toNat_setWidth, toNat_setWidth, mod_eq_of_lt h, mod_eq_of_lt c.isLt]

variable {c : BitVec 16} {b l : BitVec 8} {rest : List (BitVec 8)} {x y : BitVec 32}

theorem encode2byte_eq (hc : c < 0x800) :
    encode2byte (c.setWidth 32) = [lead2 (c.extractLsb' 6 5), tail (c.extractLsb' 0 6)] := by
  obtain ⟨d, rfl⟩ := @exists_setWidth c 11 hc
  unfold encode2byte
  simp only [List.cons.injEq, and_true]
  constructor
  · ext i hi
    interval_cases i <;> simp [setLow8, high8, lead2]
  · ext i hi
    interval_cases i <;> simp [setLow8, low8, tail]

theorem encode3byte_eq (c : BitVec 16) :
    encode3byte (c.setWidth 32) =
      [lead3 (c.extractLsb' 12 4), tail (c.extractLsb' 6 6), tail (c.extractLsb' 0 6)] := by
  unfold encode3byte
  simp only [List.cons.injEq, and_true]
  refine ⟨?_, ?_, ?_⟩
  · ext i hi
    interval_cases i <;> simp [setLow8, setLow16, low8, low16, lead3]
  · ext i hi
    interval_cases i <;> simp [setLow8, setLow16, low8, low16, high8, tail]
  · ext i hi
    interval_cases i <;> simp [setLow8, setLow16, low8, low16, tail]

variable (eax : BitVec 32)

/-- `eax` after a lead byte, a second byte and `shr ah, 2`. -/
def joined (l b : BitVec 8) : BitVec 32 :=
  let eax := setLow8 (shlAx8 (setLow8 (setLow8 eax l) (l <<< 2)) b) (b <<< 2)
  setHigh8 eax (high8 eax >>> 2)

theorem low16_joined (l b : BitVec 8) :
    low16 (joined eax l b) = ((l <<< 2) >>> 2).setWidth 16 <<< 8 ||| (b <<< 2).setWidth 16 := by
  ext i hi
  unfold joined shlAx8
  interval_cases i <;> simp [setLow8, setLow16, setHigh8, low16, high8]

def shifted (l b : BitVec 8) : BitVec 32 :=
  setLow16 (joined eax l b) (low16 (joined eax l b) <<< 3)

theorem gather_two (hb : b.getLsbD 7 = true) (hcf : b.getLsbD 6 = false)
    (h13 : (low16 (joined eax l b)).getLsbD 13 = false) :
    gather (b :: rest) (setLow8 (setLow8 eax l) (l <<< 2)) =
      some (setLow16 (shifted eax l b) (low16 (shifted eax l b) >>> 5), rest) := by
  rw [gather_cons, if_neg (by simp [hb]), if_neg (by rw [hcf]; decide)]
  exact if_pos h13

theorem gather_three {b' : BitVec 8} (hb : b.getLsbD 7 = true) (hcf : b.getLsbD 6 = false)
    (h13 : (low16 (joined eax l b)).getLsbD 13 = true) (hb' : b'.getLsbD 7 = true) (hcf' : b'.getLsbD 6 = false) :
    gather (b :: b' :: rest) (setLow8 (setLow8 eax l) (l <<< 2)) =
      some (setLow8 (setLow8 (shifted eax l b <<< 3) b') (b' <<< 2) >>> 2, rest) := by
  have hcarries : carries (setLow8 (setLow8 eax l) (l <<< 2)) b = true := h13
  rw [gather_cons, if_neg (by simp [hb]), if_neg (by rw [hcf]; decide), if_neg (by simp [hcarries]), gatherLong,
    if_neg (by simp [hb']), if_neg (by rw [hcf']; decide)]
  rfl

theorem utf8to16_cons (b : BitVec 8) (rest : List (BitVec 8)) (eax : BitVec 32) : utf8to16 (b :: rest) eax =
    if b.getLsbD 7 = false then some (setHigh8 (setLow8 eax b) 0, rest)
    else if b.getLsbD 6 then gather rest (setLow8 (setLow8 eax b) (b <<< 2))
    else utf8to16 rest (setLow8 (setLow8 eax b) (b <<< 2)) := rfl

theorem utf8to16_lead (hl : l.getLsbD 7 = true) (hcf : l.getLsbD 6 = true) :
    utf8to16 (l :: rest) eax = gather rest (setLow8 (setLow8 eax l) (l <<< 2)) := by
  rw [utf8to16_cons, if_neg (by simp [hl]), if_pos hcf]

theorem utf8to16_one (hc : c < 0x80) (rest : List (BitVec 8)) (eax : BitVec 32) :
    ∃ eax', utf8to16 (c.setWidth 8 :: rest) eax = some (eax', rest) ∧ low16 eax' = c := by
  obtain ⟨d, rfl⟩ := @exists_setWidth c 7 hc
  refine ⟨setHigh8 (setLow8 eax ((d.setWidth 16).setWidth 8)) 0, ?_, ?_⟩
  · rw [utf8to16_cons]
    exact if_pos (by simp)
  · ext i hi
    interval_cases i <;> simp [setLow8, setHigh8, low16]

theorem utf8to16_two (hc : c < 0x800) (rest : List (BitVec 8)) (eax : BitVec 32) :
    ∃ eax', utf8to16 (lead2 (c.extractLsb' 6 5) :: tail (c.extractLsb' 0 6) :: rest) eax = some (eax', rest) ∧
      low16 eax' = c := by
  obtain ⟨d, rfl⟩ := @exists_setWidth c 11 hc
  rw [utf8to16_lead _ (by simp [lead2]) (by simp [lead2]), gather_two eax (by simp [tail]) (by simp [tail])
    (by simp [low16_joined, lead2])]
  refine ⟨_, rfl, ?_⟩
  rw [low16_setLow16, shifted, low16_setLow16, low16_joined]
  ext i hi
  interval_cases i <;> simp [lead2, tail]

theorem utf8to16_three (c : BitVec 16) (rest : List (BitVec 8)) (eax : BitVec 32) :
    ∃ eax', utf8to16 (lead3 (c.extractLsb' 12 4) :: tail (c.extractLsb' 6 6) :: tail (c.extractLsb' 0 6) :: rest) eax =
      some (eax', rest) ∧ low16 eax' = c := by
  rw [utf8to16_lead _ (by simp [lead3]) (by simp [lead3]), gather_three eax (by simp [tail]) (by simp [tail])
    (by simp [low16_joined, lead3]) (by simp [tail]) (by simp [tail])]
  refine ⟨_, rfl, ?_⟩
  -- Of what `shl eax, 3` moves into the upper half, two bits come back with `shr eax, 2`.
  rw [shifted, low16_joined]
  ext i hi
  interval_cases i <;> simp [setLow8, setLow16, low16, lead3, tail]

theorem utf8to16_encode (c : BitVec 16) (rest : List (BitVec 8)) (eax : BitVec 32) :
    ∃ eax', utf8to16 (encode c ++ rest) eax = some (eax', rest) ∧ low16 eax' = c := by
  unfold encode
  split_ifs with h1 h2
  · exact utf8to16_one h1 rest eax
  · exact utf8to16_two h2 rest eax
  · exact utf8to16_three c rest eax

/-! ## Texts -/

def text (us : List (BitVec 16)) : List (BitVec 8) := us.flatMap encode

theorem text_cons (c : BitVec 16) (us : List (BitVec 16)) : text (c :: us) = encode c ++ text us := flatMap_cons

/-- So many calls: `ax` after each and what is left of the text. -/
def calls : Nat → List (BitVec 8) → BitVec 32 → Option (List (BitVec 16) × List (BitVec 8))
  | 0, t, _ => some ([], t)
  | n + 1, t, eax => do
    let (eax, t) ← utf8to16 t eax
    let (us, t) ← calls n t eax
    some (low16 eax :: us, t)

theorem calls_text (us : List (BitVec 16)) (rest : List (BitVec 8)) (eax : BitVec 32) :
    calls us.length (text us ++ rest) eax = some (us, rest) := by
  induction us generalizing eax with
  | nil => rfl
  | cons c us ih =>
    obtain ⟨eax', hcall, hax⟩ := utf8to16_encode c (text us ++ rest) eax
    rw [text_cons, List.append_assoc, List.length_cons, calls, hcall]
    simp [ih eax', hax]

/-! ## What `eax` held before -/

theorem low16_shlAx8 (h : low8 x = low8 y) (b : BitVec 8) : low16 (shlAx8 x b) = low16 (shlAx8 y b) := by
  have hbits : ∀ j < 8, x.getLsbD j = y.getLsbD j := by
    intro j hj
    have hbit := congrArg (fun w : BitVec 8 => w.getLsbD j) h
    simpa [low8, hj] using hbit
  ext i hi
  unfold shlAx8
  interval_cases i <;> simp [setLow8, setLow16, low16, hbits, -getLsbD_eq_getElem]

theorem low16_got (x : BitVec 32) (b : BitVec 8) : low16 (setHigh8 (setLow8 x b) 0) = b.setWidth 16 := by
  ext i hi
  interval_cases i <;> simp [setLow8, setHigh8, low16]

theorem low16_last (h : low16 x = low16 y) (b c : BitVec 8) :
    low16 (setLow8 (setLow8 (x <<< 3) b) c >>> 2) = low16 (setLow8 (setLow8 (y <<< 3) b) c >>> 2) := by
  ext i hi
  have hbits : ∀ j < 16, x.getLsbD j = y.getLsbD j := fun j hj => getLsbD_of_low16 h hj
  interval_cases i <;> simp [setLow8, low16, hbits, -getLsbD_eq_getElem]

def unit (r : Option (BitVec 32 × List (BitVec 8))) : Option (BitVec 16 × List (BitVec 8)) :=
  r.map fun (eax, t) => (low16 eax, t)

theorem low16_shiftedTail (h : low8 x = low8 y) (b : BitVec 8) :
    carries x b = carries y b ∧ low16 (shiftedTail x b) = low16 (shiftedTail y b) := by
  have hlow := low16_setLow8_congr (low16_shlAx8 h b) (b <<< 2)
  have hhigh := low16_setHigh8_congr hlow (high8 (setLow8 (shlAx8 x b) (b <<< 2)) >>> 2)
  unfold carries shiftedTail
  simp only [low16_setLow16]
  rw [← high8_of_low16 hlow, hhigh]
  exact ⟨rfl, rfl⟩

theorem gather_congr (t : List (BitVec 8)) (h : low8 x = low8 y) : unit (gather t x) = unit (gather t y) := by
  induction hn : t.length using Nat.strong_induction_on generalizing t x y with
  | _ n ih =>
    have hagain : ∀ (rest : List (BitVec 8)) (x y : BitVec 32) (al : BitVec 8), rest.length < n →
        unit (gather rest (setLow8 x al)) = unit (gather rest (setLow8 y al)) := by
      intro rest x y al hlt
      refine ih _ hlt rest ?_ rfl
      rw [low8_setLow8, low8_setLow8]
    cases t with
    | nil => rfl
    | cons b rest =>
      rw [length_cons] at hn
      obtain ⟨hcarries, hshifted⟩ := low16_shiftedTail h b
      rw [gather_cons, gather_cons, hcarries]
      split_ifs
      · simp [unit, low16_setHigh8_congr (low16_shlAx8 h b)]
      · exact hagain rest _ _ _ (by omega)
      · simp [unit, low16_setLow16, hshifted]
      · -- The third byte.
        cases rest with
        | nil => rfl
        | cons b' rest =>
          rw [length_cons] at hn
          simp only [gatherLong]
          split_ifs
          · simp only [unit, map_some, low16_got]
          · exact hagain rest _ _ _ (by omega)
          · simp [unit, low16_last hshifted]

theorem utf8to16_congr (t : List (BitVec 8)) (x y : BitVec 32) : unit (utf8to16 t x) = unit (utf8to16 t y) := by
  induction t generalizing x y with
  | nil => rfl
  | cons b rest ih =>
    rw [utf8to16_cons, utf8to16_cons]
    split_ifs
    · simp only [unit, map_some, low16_got]
    · exact gather_congr rest (by rw [low8_setLow8, low8_setLow8])
    · exact ih _ _

theorem calls_eax (n : Nat) (t : List (BitVec 8)) (x y : BitVec 32) : calls n t x = calls n t y := by
  induction n generalizing t x y with
  | zero => rfl
  | succ n ih =>
    have hunit := utf8to16_congr t x y
    rw [calls, calls]
    cases hx : utf8to16 t x with
    | none =>
      cases hy : utf8to16 t y with
      | none => rfl
      | some r' =>
        rw [hx, hy] at hunit
        cases hunit
    | some r =>
      cases hy : utf8to16 t y with
      | none =>
        rw [hx, hy] at hunit
        cases hunit
      | some r' =>
        rw [hx, hy] at hunit
        simp only [unit, map_some, Option.some.injEq, Prod.mk.injEq] at hunit
        simp [bind_eq_bind, hunit.1, hunit.2, ih r'.2 r.1 r'.1]

/-! ## The round trip -/

theorem decEcx_eq {ecx : BitVec 32} (hpos : 1 ≤ ecx.toNat) (hmax : ecx.toNat ≤ 2 ^ 31) :
    decEcx ecx = (ecx - 1, false) ∧ (ecx - 1).toNat = ecx.toNat - 1 := by
  have hsub : (ecx - 1).toNat = ecx.toNat - 1 := by bv_omega
  refine ⟨?_, hsub⟩
  unfold decEcx
  rw [← testBit_toNat, testBit_lt_two_pow (by omega)]

theorem setWidth_lt_iff (c : BitVec 16) {k : Nat} (hk : k < 65536) :
    c.setWidth 32 < BitVec.ofNat 32 k ↔ c < BitVec.ofNat 16 k := by
  simp only [lt_def, toNat_setWidth, toNat_ofNat]
  omega

theorem utf16to8_eq {c : BitVec 16} {ecx : BitVec 32} (hlen : (encode c).length ≤ ecx.toNat)
    (hmax : ecx.toNat ≤ 2 ^ 31) :
    ∃ ecx', utf16to8 c ecx = (some (encode c), ecx') ∧ ecx'.toNat = ecx.toNat - (encode c).length := by
  have h80 : c.setWidth 32 < (0x80 : BitVec 32) ↔ c < 0x80 := setWidth_lt_iff c (by decide)
  have h800 : c.setWidth 32 < (0x800 : BitVec 32) ↔ c < 0x800 := setWidth_lt_iff c (by decide)
  -- One decrement for each byte, before any byte is written.
  have hdec1 (h : 1 ≤ ecx.toNat) := decEcx_eq h hmax
  have hdec2 (h : 1 ≤ (ecx - 1).toNat) (h' : (ecx - 1).toNat ≤ 2 ^ 31) := decEcx_eq h h'
  have hdec3 (h : 1 ≤ (ecx - 1 - 1).toNat) (h' : (ecx - 1 - 1).toNat ≤ 2 ^ 31) := decEcx_eq h h'
  by_cases hc80 : c < 0x80
  · have henc : encode c = [c.setWidth 8] := if_pos hc80
    rw [henc] at hlen ⊢
    obtain ⟨hd1, he1⟩ := hdec1 hlen
    refine ⟨ecx - 1, ?_, he1⟩
    have hlow : low8 (c.setWidth 32) = c.setWidth 8 := by simp [low8]
    simp only [utf16to8, hd1, Bool.false_eq_true, if_false, h80, hc80, if_true, hlow]
  by_cases hc800 : c < 0x800
  · have henc : encode c = [lead2 (c.extractLsb' 6 5), tail (c.extractLsb' 0 6)] :=
      (if_neg hc80).trans (if_pos hc800)
    rw [henc] at hlen ⊢
    simp only [length_cons, length_nil] at hlen ⊢
    obtain ⟨hd1, he1⟩ := hdec1 (by omega)
    obtain ⟨hd2, he2⟩ := hdec2 (by omega) (by omega)
    refine ⟨ecx - 1 - 1, ?_, by omega⟩
    simp only [utf16to8, hd1, hd2, Bool.false_eq_true, if_false, h80, hc80, h800, hc800, if_true, encode2byte_eq]
  have henc : encode c = [lead3 (c.extractLsb' 12 4), tail (c.extractLsb' 6 6), tail (c.extractLsb' 0 6)] :=
    (if_neg hc80).trans (if_neg hc800)
  rw [henc] at hlen ⊢
  simp only [length_cons, length_nil] at hlen ⊢
  obtain ⟨hd1, he1⟩ := hdec1 (by omega)
  obtain ⟨hd2, he2⟩ := hdec2 (by omega) (by omega)
  obtain ⟨hd3, he3⟩ := hdec3 (by omega) (by omega)
  refine ⟨ecx - 1 - 1 - 1, ?_, by omega⟩
  simp only [utf16to8, hd1, hd2, hd3, Bool.false_eq_true, if_false, h80, hc80, h800, hc800, encode3byte_eq]

theorem utf16to8_none {c : BitVec 16} {ecx : BitVec 32} (hlt : ecx.toNat < (encode c).length) :
    ∃ ecx', utf16to8 c ecx = (none, ecx') := by
  have h80 : c.setWidth 32 < 0x80#32 ↔ c < 0x80#16 := setWidth_lt_iff c (by decide)
  have h800 : c.setWidth 32 < 0x800#32 ↔ c < 0x800#16 := setWidth_lt_iff c (by decide)
  -- A budget below the width is one of three.
  have hsmall : ecx = 0 ∨ ecx = 1 ∧ ¬ c < 0x80#16 ∨ ecx = 2 ∧ ¬ c < 0x80#16 ∧ ¬ c < 0x800#16 := by
    unfold encode at hlt
    split_ifs at hlt with hc80 hc800 <;> simp only [length_cons, length_nil] at hlt <;> bv_omega
  rcases hsmall with rfl | ⟨rfl, hc80⟩ | ⟨rfl, hc80, hc800⟩
  · exact ⟨_, rfl⟩
  · simp [utf16to8, decEcx, h80, hc80]
  · simp [utf16to8, decEcx, h80, hc80, h800, hc800]

theorem length_utf16to8String_le (us : List (BitVec 16)) {ecx : BitVec 32} (hmax : ecx.toNat ≤ 2 ^ 31) :
    (utf16to8String us ecx).1.length ≤ ecx.toNat := by
  induction us generalizing ecx with
  | nil => exact zero_le _
  | cons c us ih =>
    rw [utf16to8String]
    by_cases hfits : (encode c).length ≤ ecx.toNat
    · obtain ⟨ecx1, heq, hecx1⟩ := utf16to8_eq hfits hmax
      have hrest := @ih ecx1 (by omega)
      rw [heq]
      split_ifs
      · exact hfits
      · simp only [length_append]
        omega
    · obtain ⟨ecx', heq⟩ := utf16to8_none (not_le.mp hfits)
      rw [heq]
      exact zero_le _

/-- Either all fits, or the text stops in front of a unit that does not. -/
theorem utf16to8String_cases {us : List (BitVec 16)} (hus : ∀ c ∈ us, c ≠ 0) (more : List (BitVec 16)) {ecx : BitVec 32}
    (hmax : ecx.toNat ≤ 2 ^ 31) :
    (text (us ++ [0])).length ≤ ecx.toNat ∧
        (∃ ecx', utf16to8String (us ++ 0 :: more) ecx = (text (us ++ [0]), ecx', true)) ∨
      ecx.toNat < (text (us ++ [0])).length ∧ ∃ done ecx', done <+: us ++ [0] ∧ (text done).length ≤ ecx.toNat ∧
        utf16to8String (us ++ 0 :: more) ecx = (text done, ecx', false) := by
  induction us generalizing ecx with
  | nil =>
    have htext : text ([] ++ [0]) = encode 0 := by simp [text]
    rw [htext, List.nil_append, utf16to8String]
    by_cases hfits : (encode 0).length ≤ ecx.toNat
    · obtain ⟨ecx', heq, -⟩ := utf16to8_eq hfits hmax
      exact .inl ⟨hfits, ecx', by rw [heq]; rfl⟩
    · obtain ⟨ecx', heq⟩ := utf16to8_none (not_le.mp hfits)
      exact .inr ⟨not_le.mp hfits, [], ecx', List.nil_prefix, zero_le _, by rw [heq]; rfl⟩
  | cons c us ih =>
    have hc : c ≠ 0 := hus c List.mem_cons_self
    simp only [List.cons_append, text_cons, List.length_append, utf16to8String]
    by_cases hfits : (encode c).length ≤ ecx.toNat
    · obtain ⟨ecx1, heq, hecx1⟩ := utf16to8_eq hfits hmax
      rcases @ih (fun d hd => hus d (List.mem_cons_of_mem c hd)) ecx1 (by omega) with
        ⟨hlen, ecx', hrest⟩ | ⟨hlt, done, ecx', hdone, hlen, hrest⟩
      · exact .inl ⟨by omega, ecx', by simp only [heq, hc, if_false, hrest]⟩
      · refine .inr ⟨by omega, c :: done, ecx', List.cons_prefix_cons.mpr ⟨rfl, hdone⟩, ?_, ?_⟩
        · rw [text_cons, List.length_append]
          omega
        · simp only [heq, hc, if_false, hrest, text_cons]
    · obtain ⟨ecx', heq⟩ := utf16to8_none (not_le.mp hfits)
      exact .inr ⟨by omega, [], ecx', List.nil_prefix, zero_le _, by simp [heq, text]⟩

/-- What is written fits. It ends with the zero if and only if there is room for all. -/
theorem utf16to8String_budget (us : List (BitVec 16)) (hus : ∀ c ∈ us, c ≠ 0) (more : List (BitVec 16)) (ecx : BitVec 32)
    (hmax : ecx.toNat < 2 ^ 31) :
    ((utf16to8String (us ++ 0 :: more) ecx).2.2 = true ↔ (text (us ++ [0])).length ≤ ecx.toNat) ∧
      (utf16to8String (us ++ 0 :: more) ecx).1.length ≤ ecx.toNat ∧
      ∃ done, done <+: us ++ [0] ∧ (utf16to8String (us ++ 0 :: more) ecx).1 = text done := by
  rcases utf16to8String_cases hus more hmax.le with ⟨hlen, ecx', heq⟩ | ⟨hlt, done, ecx', hdone, hlen, heq⟩ <;> rw [heq]
  · exact ⟨iff_of_true rfl hlen, hlen, us ++ [0], prefix_rfl, rfl⟩
  · exact ⟨iff_of_false (by simp) (not_le.mpr hlt), hlen, done, hdone, rfl⟩

theorem utf16to8String_budget_two : (utf16to8String ([0x41, 0xE9] ++ 0 :: []) 3).2.2 = false ∧
    (utf16to8String ([0x41, 0xE9] ++ 0 :: []) 3).1.length ≤ 3 := by
  obtain ⟨hok, hlen, -⟩ := utf16to8String_budget [0x41, 0xE9] (by simp) [] 3 (by decide)
  exact ⟨Bool.eq_false_iff.mpr fun h => absurd (hok.mp h) (by decide +kernel), hlen⟩

/-- Units come back from their text. The budget is signed: it may be `2 ^ 31` at most. -/
theorem calls_utf16to8String {us : List (BitVec 16)} (hus : ∀ c ∈ us, c ≠ 0) (more : List (BitVec 16))
    {ecx : BitVec 32} (hlen : (text (us ++ [0])).length ≤ ecx.toNat) (hmax : ecx.toNat ≤ 2 ^ 31) :
    ∃ bytes ecx', utf16to8String (us ++ 0 :: more) ecx = (bytes, ecx', true) ∧
      ∀ eax rest, calls (us.length + 1) (bytes ++ rest) eax = some (us ++ [0], rest) := by
  obtain ⟨-, ecx', heq⟩ := (utf16to8String_cases hus more hmax).resolve_right fun h => (h.1.trans_le hlen).false
  refine ⟨text (us ++ [0]), ecx', heq, fun eax rest => ?_⟩
  have hcalls := calls_text (us ++ [0]) rest eax
  rwa [length_append] at hcalls

theorem calls_utf16to8String_surrogate :
    ∃ bytes ecx', utf16to8String ([0x41, 0xD800] ++ [0]) 5 = (bytes, ecx', true) ∧
      ∀ eax rest, calls ([0x41, 0xD800].length + 1) (bytes ++ rest) eax = some ([0x41, 0xD800] ++ [0], rest) :=
  calls_utf16to8String (by simp) [] (by decide +kernel) (by decide)

/-- More than `2 ^ 31` bytes of room count as none. -/
theorem utf16to8String_large_budget :
    ¬ ∀ (us more : List (BitVec 16)) (ecx : BitVec 32), (∀ c ∈ us, c ≠ 0) → (text (us ++ [0])).length ≤ ecx.toNat →
      ∃ bytes ecx', utf16to8String (us ++ 0 :: more) ecx = (bytes, ecx', true) ∧
        ∀ eax rest, calls (us.length + 1) (bytes ++ rest) eax = some (us ++ [0], rest) := by
  intro h
  obtain ⟨bytes, ecx', heq, -⟩ := h [0x41] [] 0x80000001 (by simp) (by decide +kernel)
  have hfails : (utf16to8String ([0x41] ++ 0 :: []) 0x80000001).2.2 = false := by decide +kernel
  rw [heq] at hfails
  cases hfails

end Kolibri.Unicode
