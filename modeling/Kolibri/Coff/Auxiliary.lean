import Kolibri.Coff.Rebase

/-! # Auxiliary records in the symbol table

The last byte of a symbol says how many records of 18 bytes with other data follow it.
-/

namespace Kolibri.Coff

open Memory

/-! ## Symbols and auxiliary records -/

def recordAt (symbols : BitVec 32) (i : Nat) : BitVec 32 := symbols + 18 * BitVec.ofNat 32 i

def auxLeft (symbols : BitVec 32) (m : Mem) : Nat → Nat
  | 0 => 0
  | i + 1 => if auxLeft symbols m i = 0 then (m (recordAt symbols i + 17)).toNat else auxLeft symbols m i - 1

def IsAux (symbols : BitVec 32) (m : Mem) (i : Nat) : Prop := auxLeft symbols m i ≠ 0
  deriving Decidable

section

variable (getProcEx : List (BitVec 8) → BitVec 32) (sec symbols strings : BitVec 32) (m : Mem)

def walk (skip : Nat → Prop) [DecidablePred skip] : Nat → Mem × BitVec 32
  | 0 => (m, 1)
  | i + 1 => if skip i then walk skip i else fixSymbol getProcEx sec strings (recordAt symbols i) (walk skip i)

/-- The memory when the loop comes to a record and has changed nothing but symbols. -/
def symbolsFixed (i : Nat) : Mem := (walk getProcEx sec symbols strings m (IsAux symbols m) i).1

def numberAt (i : Nat) : BitVec 16 := load16 m (recordAt symbols i + 12)

def resolvedAt (i : Nat) : BitVec 32 := getProcEx (cstr m 256 (namePtr m strings (recordAt symbols i)))

def sectionVa (i : Nat) : BitVec 32 := load32 m (sectionPtr sec (numberAt symbols m i) + 12)

structure SymbolsFixed (n : Nat) (out : Mem × BitVec 32) : Prop where
  aux : ∀ i < n, IsAux symbols m i → ∀ x, Within (recordAt symbols i) 18 x → out.1 x = m x
  internal : ∀ i < n, ¬ IsAux symbols m i → Internal (numberAt symbols m i) → load32 out.1 (recordAt symbols i + 8) =
      load32 m (recordAt symbols i + 8) + sectionVa sec symbols (symbolsFixed getProcEx sec symbols strings m i) i
  external : ∀ i < n, ¬ IsAux symbols m i → numberAt symbols m i = 0 → load32 out.1 (recordAt symbols i + 8) =
      resolvedAt getProcEx symbols strings (symbolsFixed getProcEx sec symbols strings m i) i
  rest : ∀ x, (∀ i < n, ¬ IsAux symbols m i → numberAt symbols m i = 0 ∨ Internal (numberAt symbols m i) →
    ¬ Within (recordAt symbols i + 8) 4 x) → out.1 x = m x
  returned : out.2 = 1 ↔ ∀ i < n, ¬ IsAux symbols m i → numberAt symbols m i = 0 →
    resolvedAt getProcEx symbols strings (symbolsFixed getProcEx sec symbols strings m i) i ≠ 0

/-- A record that is taken for a symbol keeps its bytes. -/
def KeepsBytes (i : Nat) : Prop :=
  numberAt symbols m i = 0xFFFF ∨ numberAt symbols m i = 0xFFFE ∨
    Internal (numberAt symbols m i) ∧ sectionVa sec symbols m i = 0 ∨
    numberAt symbols m i = 0 ∧ resolvedAt getProcEx symbols strings m i = load32 m (recordAt symbols i + 8)

def Unresolved (i : Nat) : Prop := numberAt symbols m i = 0 ∧ resolvedAt getProcEx symbols strings m i = 0

end

/-! ## Records do not meet -/

variable {getProcEx : List (BitVec 8) → BitVec 32} {sec symbols strings x : BitVec 32} {m : Mem} {n i j : Nat}

theorem record_offset (hfit : 18 * n ≤ 2 ^ 32) (hi : i < n) (hx : Within (recordAt symbols i) 18 x) :
    18 * i ≤ (x - symbols).toNat ∧ (x - symbols).toNat < 18 * i + 18 := by
  have hmul : (18 * BitVec.ofNat 32 i).toNat = 18 * i := by
    rw [BitVec.toNat_mul, BitVec.toNat_ofNat]
    change 18 * (i % 2 ^ 32) % 2 ^ 32 = _
    omega
  unfold recordAt Within at hx
  generalize 18 * BitVec.ofNat 32 i = k at *
  bv_omega

theorem records_apart (hfit : 18 * n ≤ 2 ^ 32) (hi : i < n) (hj : j < n) (hne : i ≠ j)
    (hx : Within (recordAt symbols i) 18 x) : ¬ Within (recordAt symbols j) 18 x := by
  intro hx'
  have hrange := record_offset hfit hi hx
  have hrange' := record_offset hfit hj hx'
  omega

theorem fixSymbol_other (hfit : 18 * n ≤ 2 ^ 32) (hi : i < n) (hj : j < n) (hne : i ≠ j) (s : Mem × BitVec 32)
    (hx : Within (recordAt symbols j) 18 x) :
    (fixSymbol getProcEx sec strings (recordAt symbols i) s).1 x = s.1 x := by
  apply fixSymbol_outside
  intro hvalue
  exact records_apart hfit hi hj hne (within_record (by decide) hvalue) hx

/-! ## One round -/

theorem fixSymbol_absolute {s : Mem × BitVec 32} (h : ¬ (numberAt symbols s.1 i = 0 ∨ Internal (numberAt symbols s.1 i))) :
    fixSymbol getProcEx sec strings (recordAt symbols i) s = s := by
  rw [not_or] at h
  obtain ⟨hext, hint⟩ := h
  have hcond : ¬ (numberAt symbols s.1 i ≠ 0xFFFF ∧ numberAt symbols s.1 i ≠ 0xFFFE) := fun hne => hint ⟨hext, hne⟩
  exact (if_neg hext).trans (if_neg hcond)

theorem fixSymbol_returned (s : Mem × BitVec 32) :
    (fixSymbol getProcEx sec strings (recordAt symbols i) s).2 =
      if numberAt symbols s.1 i = 0 ∧ resolvedAt getProcEx symbols strings s.1 i = 0 then 0 else s.2 := by
  unfold fixSymbol numberAt resolvedAt
  dsimp only
  split_ifs with hext hzero hboth hint hint' <;> simp_all

theorem fixSymbol_memory {s t : Mem × BitVec 32} (h : s.1 = t.1) (sym : BitVec 32) :
    (fixSymbol getProcEx sec strings sym s).1 = (fixSymbol getProcEx sec strings sym t).1 := by
  unfold fixSymbol
  rw [h]
  dsimp only
  split_ifs
  · rfl
  · rfl
  · rfl
  · exact h

theorem symbolValue_external (h : numberAt symbols m i = 0) :
    symbolValue getProcEx sec strings m (recordAt symbols i) = resolvedAt getProcEx symbols strings m i :=
  if_pos h

theorem symbolValue_internal (h : Internal (numberAt symbols m i)) :
    symbolValue getProcEx sec strings m (recordAt symbols i) =
      load32 m (recordAt symbols i + 8) + sectionVa sec symbols m i :=
  (if_neg h.1).trans (if_pos h.2)

theorem symbolValue_eq_iff : symbolValue getProcEx sec strings m (recordAt symbols i) = load32 m (recordAt symbols i + 8) ↔
    KeepsBytes getProcEx sec symbols strings m i := by
  unfold KeepsBytes
  by_cases hext : numberAt symbols m i = 0
  · rw [symbolValue_external hext]
    simp [hext, Internal]
  by_cases hint : Internal (numberAt symbols m i)
  · rw [symbolValue_internal hint]
    constructor
    · intro h
      exact .inr (.inr (.inl ⟨hint, by simpa using h⟩))
    rintro (h | h | ⟨-, h⟩ | ⟨h, -⟩)
    · exact absurd h hint.2.1
    · exact absurd h hint.2.2
    · rw [h]
      exact BitVec.add_zero _
    · exact absurd h hext
  · have habs : symbolValue getProcEx sec strings m (recordAt symbols i) = load32 m (recordAt symbols i + 8) :=
      (if_neg hext).trans (if_neg fun hne => hint ⟨hext, hne⟩)
    refine iff_of_true habs ?_
    by_contra hnone
    rw [not_or, not_or] at hnone
    exact hint ⟨hext, hnone.1, hnone.2.1⟩

/-! ## The walk -/

section

variable {skip : Nat → Prop} [DecidablePred skip]

variable (hfit : 18 * n ≤ 2 ^ 32)
include hfit

theorem walk_ahead (hij : i ≤ j) (hj : j < n) (hx : Within (recordAt symbols j) 18 x) :
    (walk getProcEx sec symbols strings m skip i).1 x = m x := by
  induction i with
  | zero => rfl
  | succ i ih =>
    rw [walk]
    split_ifs
    · exact ih (by omega)
    · rw [fixSymbol_other hfit (by omega) hj (by omega) _ hx]
      exact ih (by omega)

theorem walk_behind (hji : j < i) (hi : i ≤ n) (hx : Within (recordAt symbols j) 18 x) :
    (walk getProcEx sec symbols strings m skip i).1 x = (walk getProcEx sec symbols strings m skip (j + 1)).1 x := by
  induction i with
  | zero => omega
  | succ i ih =>
    rcases Nat.lt_or_eq_of_le (Nat.le_of_lt_succ hji) with hlt | rfl
    · rw [walk]
      split_ifs
      · exact ih hlt (by omega)
      · rw [fixSymbol_other hfit (by omega) (by omega) (by omega) _ hx]
        exact ih hlt (by omega)
    · rfl

theorem numberAt_walk (hi : i < n) :
    numberAt symbols (walk getProcEx sec symbols strings m skip i).1 i = numberAt symbols m i :=
  load16_congr fun _ hx => walk_ahead hfit (le_refl i) hi (within_record (by decide) hx)

theorem valueAt_walk (hi : i < n) :
    load32 (walk getProcEx sec symbols strings m skip i).1 (recordAt symbols i + 8) =
      load32 m (recordAt symbols i + 8) :=
  load32_congr fun _ hx => walk_ahead hfit (le_refl i) hi (within_record (by decide) hx)

theorem walk_value (hi : i < n) (hskip : ¬ skip i) :
    load32 (walk getProcEx sec symbols strings m skip n).1 (recordAt symbols i + 8) =
      symbolValue getProcEx sec strings (walk getProcEx sec symbols strings m skip i).1 (recordAt symbols i) := by
  rw [← fixSymbol_value]
  refine load32_congr fun x hx => ?_
  rw [walk_behind hfit hi (le_refl n) (within_record (by decide) hx), walk, if_neg hskip]

theorem walk_skipped (hi : i < n) (hskip : skip i) (hx : Within (recordAt symbols i) 18 x) :
    (walk getProcEx sec symbols strings m skip n).1 x = m x := by
  rw [walk_behind hfit hi (le_refl n) hx, walk, if_pos hskip]
  exact walk_ahead hfit (le_refl i) hi hx

theorem walk_outside
    (hx : ∀ i < n, ¬ skip i → numberAt symbols m i = 0 ∨ Internal (numberAt symbols m i) →
      ¬ Within (recordAt symbols i + 8) 4 x) (hi : i ≤ n) :
    (walk getProcEx sec symbols strings m skip i).1 x = m x := by
  induction i with
  | zero => rfl
  | succ i ih =>
    rw [walk]
    split_ifs with hskip
    · exact ih (by omega)
    rw [← ih (by omega)]
    by_cases habs : numberAt symbols m i = 0 ∨ Internal (numberAt symbols m i)
    · exact fixSymbol_outside _ _ _ _ _ (hx i (by omega) hskip habs)
    · rw [fixSymbol_absolute]
      rwa [numberAt_walk hfit (by omega)]

theorem walk_returned (hi : i ≤ n) :
    (walk getProcEx sec symbols strings m skip i).2 = 1 ↔ ∀ j < i, ¬ skip j → numberAt symbols m j = 0 →
      resolvedAt getProcEx symbols strings (walk getProcEx sec symbols strings m skip j).1 j ≠ 0 := by
  induction i with
  | zero => simp [walk]
  | succ i ih =>
    have hsplit (P : Nat → Prop) : (∀ j < i + 1, P j) ↔ (∀ j < i, P j) ∧ P i := by
      simp only [Nat.lt_succ_iff_lt_or_eq, or_imp, forall_and, forall_eq]
    rw [walk, hsplit, ← ih (by omega)]
    split_ifs with hskip
    · simp [hskip]
    rw [fixSymbol_returned, numberAt_walk hfit (by omega)]
    simp only [hskip, not_false_eq_true, true_implies]
    split_ifs with hzero
    · simp [hzero.1, hzero.2]
    · rw [iff_self_and]
      exact fun _ hnumber hresolved => hzero ⟨hnumber, hresolved⟩

end

/-! ## The loop -/

section

variable (getProcEx sec symbols strings m)

theorem fixCoffSymbols_eq_walk (symCount : BitVec 32) :
    fixCoffSymbols getProcEx sec symbols symCount strings m =
      walk getProcEx sec symbols strings m (fun _ => False) symCount.toNat := by
  unfold fixCoffSymbols
  generalize symCount.toNat = n
  induction n with
  | zero => rfl
  | succ n ih =>
    rw [forEach_succ, ih, walk, if_neg id]
    rfl

end

theorem walk_all_eq (h : ∀ j < i, IsAux symbols m j →
      KeepsBytes getProcEx sec symbols strings (symbolsFixed getProcEx sec symbols strings m j) j) :
    (walk getProcEx sec symbols strings m (fun _ => False) i).1 = symbolsFixed getProcEx sec symbols strings m i := by
  induction i with
  | zero => rfl
  | succ i ih =>
    have hbefore := ih fun j hj => h j (by omega)
    rw [walk, if_neg id, symbolsFixed, walk]
    split_ifs with haux
    · -- The round writes what is there.
      have hkeeps := h i (by omega) haux
      rw [← hbefore, ← symbolValue_eq_iff, ← fixSymbol_value] at hkeeps
      change _ = symbolsFixed getProcEx sec symbols strings m i
      rw [← hbefore]
      funext x
      by_cases hx : Within (recordAt symbols i + 8) 4 x
      · exact eq_of_load32 hkeeps hx
      · exact fixSymbol_outside _ _ _ _ _ hx
    · exact fixSymbol_memory hbefore _

theorem symbolsFixed_spec (hfit : 18 * n ≤ 2 ^ 32) {r : BitVec 32}
    (hr : r = 1 ↔ ∀ i < n, ¬ IsAux symbols m i → numberAt symbols m i = 0 →
      resolvedAt getProcEx symbols strings (symbolsFixed getProcEx sec symbols strings m i) i ≠ 0) :
    SymbolsFixed getProcEx sec symbols strings m n (symbolsFixed getProcEx sec symbols strings m n, r) where
  aux i hi haux x hx := walk_skipped hfit hi haux hx
  internal i hi haux hint := by
    have hnumber := @numberAt_walk getProcEx sec symbols strings m n i (IsAux symbols m) _ hfit hi
    refine (walk_value hfit hi haux).trans ?_
    rw [symbolValue_internal (by rwa [hnumber]), valueAt_walk hfit hi]
    rfl
  external i hi haux hext := by
    have hnumber := @numberAt_walk getProcEx sec symbols strings m n i (IsAux symbols m) _ hfit hi
    refine (walk_value hfit hi haux).trans ?_
    rw [symbolValue_external (by rwa [hnumber])]
    rfl
  rest x hx := walk_outside hfit hx (le_refl n)
  returned := hr

/-- Auxiliary records are left alone exactly if each, taken for a symbol, keeps its bytes and adds no failure. -/
theorem fix_coff_symbols_aux_iff {symCount : BitVec 32} (hfit : 18 * symCount.toNat ≤ 2 ^ 32) :
    SymbolsFixed getProcEx sec symbols strings m symCount.toNat
        (fixCoffSymbols getProcEx sec symbols symCount strings m) ↔
      (∀ i < symCount.toNat, IsAux symbols m i →
        KeepsBytes getProcEx sec symbols strings (symbolsFixed getProcEx sec symbols strings m i) i) ∧
      ((∃ i < symCount.toNat, IsAux symbols m i ∧
          Unresolved getProcEx symbols strings (symbolsFixed getProcEx sec symbols strings m i) i) →
        ∃ i < symCount.toNat, ¬ IsAux symbols m i ∧
          Unresolved getProcEx symbols strings (symbolsFixed getProcEx sec symbols strings m i) i) := by
  rw [fixCoffSymbols_eq_walk]
  generalize symCount.toNat = n at hfit
  have hnumber {i : Nat} (hi : i < n) :
      numberAt symbols (symbolsFixed getProcEx sec symbols strings m i) i = numberAt symbols m i :=
    numberAt_walk hfit hi
  have hreturned := @walk_returned getProcEx sec symbols strings m n n (fun _ => False) _ hfit (le_refl n)
  constructor
  · intro hfixed
    have hkeeps : ∀ i < n, IsAux symbols m i →
        KeepsBytes getProcEx sec symbols strings (symbolsFixed getProcEx sec symbols strings m i) i := by
      intro i
      induction i using Nat.strong_induction_on with
      | _ i ih =>
        intro hi haux
        -- The records before this one were kept, so the round sees what it should. Its own bytes are kept in the end.
        have hbefore := walk_all_eq fun j (hj : j < i) => ih j hj (by omega)
        have hvalue := @walk_value getProcEx sec symbols strings m n i (fun _ => False) _ hfit hi id
        rw [← hbefore, ← symbolValue_eq_iff, ← hvalue, valueAt_walk hfit hi]
        exact load32_congr fun x hx => hfixed.aux i hi haux x (within_record (by decide) hx)
    refine ⟨hkeeps, ?_⟩
    rintro ⟨i, hi, -, hnum, hres⟩
    by_contra hnone
    -- Every symbol resolves, but the auxiliary record does not.
    have hone := hfixed.returned.mpr fun j hj haux hnum' hres' => hnone ⟨j, hj, haux, by rwa [hnumber hj], hres'⟩
    refine hreturned.mp hone i hi id (by rwa [← hnumber hi]) ?_
    rwa [walk_all_eq fun j (hj : j < i) => hkeeps j (by omega)]
  · rintro ⟨hkeeps, hunresolved⟩
    have hmem {i : Nat} (hi : i ≤ n) := walk_all_eq fun j (hj : j < i) => hkeeps j (by omega)
    have hspec := @symbolsFixed_spec getProcEx sec symbols strings m n hfit
      (walk getProcEx sec symbols strings m (fun _ => False) n).2 ?_
    · rwa [← hmem (le_refl n)] at hspec
    rw [hreturned]
    constructor
    · intro hall i hi _ hnum
      rw [← hmem (Nat.le_of_lt hi)]
      exact hall i hi id hnum
    intro hall i hi _ hnum hres
    rw [hmem (Nat.le_of_lt hi)] at hres
    by_cases haux : IsAux symbols m i
    · obtain ⟨j, hj, haux', hnum', hres'⟩ := hunresolved ⟨i, hi, haux, by rwa [hnumber hi], hres⟩
      exact hall j hj haux' (by rwa [← hnumber hj]) hres'
    · exact hall i hi haux hnum hres

def tableWithAux (aux : List (BitVec 8)) : Mem := fun a =>
  ((List.replicate 12 0 ++ [16, 0, 0, 0] ++ List.replicate 24 0) ++
    ([0x2E, 0x74, 0x65, 0x78, 0x74, 0, 0, 0] ++ [0, 0, 0, 0] ++ [1, 0] ++ [0, 0, 3, 1]) ++ aux).getD
      (a - 0x1000#32).toNat 0

theorem fix_coff_symbols_file_name :
    SymbolsFixed (fun _ => 0) 0x1000#32 0x1028#32 0x104C#32 (tableWithAux (List.replicate 18 0xFF)) (2#32).toNat
      (fixCoffSymbols (fun _ => 0) 0x1000#32 0x1028#32 2#32 0x104C#32 (tableWithAux (List.replicate 18 0xFF))) := by
  refine (fix_coff_symbols_aux_iff (by decide)).mpr ⟨?_, ?_⟩
  · intro i hi haux
    obtain rfl | rfl : i = 0 ∨ i = 1 := Nat.le_one_iff_eq_zero_or_eq_one.mp (Nat.le_of_lt_succ hi)
    · exact absurd haux (by decide)
    · exact .inl (by decide +kernel)
  · rintro ⟨i, hi, haux, hnumber, -⟩
    obtain rfl | rfl : i = 0 ∨ i = 1 := Nat.le_one_iff_eq_zero_or_eq_one.mp (Nat.le_of_lt_succ hi)
    · exact absurd haux (by decide)
    · exact absurd hnumber (by decide +kernel)

/-- The checksum in the auxiliary record of a section symbol is changed. -/
theorem fix_coff_symbols_section_record : ¬ ∀ (getProcEx : List (BitVec 8) → BitVec 32) (sec symbols strings : BitVec 32)
    (m : Mem) (symCount : BitVec 32), 18 * symCount.toNat ≤ 2 ^ 32 →
      SymbolsFixed getProcEx sec symbols strings m symCount.toNat
        (fixCoffSymbols getProcEx sec symbols symCount strings m) := by
  intro h
  have hfixed := h (fun _ => 0) 0x1000#32 0x1028#32 0x104C#32
    (tableWithAux ([0x40, 0, 0, 0] ++ [0, 0, 0, 0] ++ [0, 0, 0, 0] ++ [1, 0] ++ [0, 0, 0, 0])) 2#32 (by decide)
  have hbyte := hfixed.aux 1 (by decide) (by decide) 0x1042#32 (by decide)
  revert hbyte
  decide +kernel

end Kolibri.Coff
