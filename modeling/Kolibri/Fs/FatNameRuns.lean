import Kolibri.Fs.FatNames

/-! # The candidates for a short name

Every step but one lowers a rank. The exception is a tilde in the first place with nines behind it.
-/

namespace Kolibri.Fat

open List

variable {l l' m : List (BitVec 8)} {c : BitVec 8} {ok : Bool} {j k : Nat}

/-! ## The bytes of the next base -/

/-- The byte that is counted up, which is the last one before the nines, gives one of `P` again. -/
def CountsTo (P : BitVec 8 → Prop) (l : List (BitVec 8)) : Prop :=
  tilde ∈ l → ∀ c ∈ (l.filter (· ≠ nine)).getLast?, c = tilde ∨ P (c + 1)

theorem getLast?_filter_nines (hc : c ≠ nine) :
    ((m ++ c :: List.replicate j nine).filter (· ≠ nine)).getLast? = some c := by
  have hnines : (List.replicate j nine).filter (· ≠ nine) = [] := filter_eq_nil_iff.mpr (by simp)
  rw [filter_append, filter_cons_of_pos (by simpa using hc), hnines]
  exact getLast?_concat

theorem Next.length_le (h : Next l ok l') (hlen : l.length ≤ 8) : l'.length ≤ 8 := by
  cases h <;> simp at hlen ⊢ <;> omega

theorem Next.forall_iff {P : BitVec 8 → Prop} (h : Next l ok l') (htilde : P tilde) (hzero : P zero) (hone : P one)
    (hl : ∀ c ∈ l, P c) : (∀ c ∈ l', P c) ↔ CountsTo P l := by
  have hlast : ∀ {m j}, l = m ++ tilde :: List.replicate j nine → CountsTo P l := by
    rintro m j rfl - c hc
    rw [getLast?_filter_nines (by decide)] at hc
    exact .inl (Option.some.inj hc).symm
  cases h with
  | insert h =>
    refine iff_of_true ?_ fun h' => absurd h' h
    simp only [forall_mem_append, forall_mem_cons]
    exact ⟨fun c hc => hl c (mem_of_mem_take hc), htilde, hone, forall_mem_nil _⟩
  | @count m c j h hnine hc =>
    have hm := (forall_mem_append.mp hl).1
    simp only [forall_mem_append, forall_mem_cons, mem_replicate]
    constructor
    · rintro ⟨-, hnext, -⟩ - x hx
      rw [getLast?_filter_nines hnine] at hx
      exact .inr (Option.some.inj hx ▸ hnext)
    · intro hnext
      have hc' := (hnext (mem_append_left _ h) c (getLast?_filter_nines hnine)).resolve_left hc
      exact ⟨hm, hc', fun x hx => hx.2 ▸ hzero⟩
  | expand h =>
    refine iff_of_true ?_ (hlast rfl)
    simp only [forall_mem_append, forall_mem_cons, mem_replicate] at hl ⊢
    exact ⟨hl.1, htilde, hone, fun x hx => hx.2 ▸ hzero⟩
  | @shift m x j h hm =>
    refine iff_of_true ?_ (@hlast (m ++ [x]) j (by simp))
    simp only [forall_mem_append, forall_mem_cons, mem_replicate] at hl ⊢
    exact ⟨hl.1, htilde, hone, fun x hx => hx.2 ▸ hzero⟩
  | @last x => exact iff_of_true hl (@hlast [x] 6 rfl)
  | stuck => exact iff_of_true hl (@hlast [] 7 rfl)

theorem Next.letters (h : Next l ok l') (hl : ∀ c ∈ l, Letter c) : ∀ c ∈ l', Letter c := by
  refine (h.forall_iff (by decide) (by decide) (by decide) hl).mpr fun _ c hc => ?_
  have hletter := hl c (mem_of_mem_filter (mem_of_mem_getLast? hc))
  by_cases htilde : c = tilde
  · exact .inl htilde
  · have hne : c.toNat ≠ 0x7E := fun h => htilde (BitVec.eq_of_toNat_eq h)
    unfold Letter at hletter ⊢
    bv_omega

/-! ## Names that cannot be numbered -/

def Big (c : BitVec 8) : Prop := 0x39 < c.toNat
  deriving Decidable

/-- A number fits behind the base: it is not empty, and a tilde in front is followed by a byte above `9`. -/
def Numberable (base : List (BitVec 8)) : Prop :=
  ∃ x xs, base = x :: xs ∧ (x = tilde → ∃ c ∈ xs, Big c)

theorem numberable_cons {x : BitVec 8} : Numberable (x :: l) ↔ (x = tilde → ∃ c ∈ l, Big c) := by
  constructor
  · rintro ⟨x, xs, heq, h⟩
    obtain ⟨rfl, rfl⟩ := List.cons.inj heq
    exact h
  · exact fun h => ⟨x, l, rfl, h⟩

theorem numberable_of_tilde (hm : m ≠ []) (l : List (BitVec 8)) : Numberable (m ++ tilde :: l) := by
  obtain ⟨x, xs, rfl⟩ := exists_cons_of_ne_nil hm
  exact numberable_cons.mpr fun _ => ⟨tilde, by simp, by decide⟩

theorem not_numberable_tilde (hl : ∀ c ∈ l, ¬ Big c) : ¬ Numberable (tilde :: l) := fun h =>
  have ⟨c, hc, hbig⟩ := numberable_cons.mp h rfl
  hl c hc hbig

theorem big_succ_iff (hletter : Letter c) (hnine : c ≠ nine) : Big (c + 1) ↔ Big c := by
  have hne : c.toNat ≠ 0x39 := fun h => hnine (BitVec.eq_of_toNat_eq h)
  unfold Letter at hletter
  unfold Big
  bv_omega

theorem not_big_replicate {x : BitVec 8} (hx : ¬ Big x) (j : Nat) : ∀ c ∈ List.replicate j x, ¬ Big c := by
  simp +contextual [hx]

theorem Next.numberable_iff (h : Next l ok l') (hl : ∀ c ∈ l, Letter c) : Numberable l' ↔ Numberable l := by
  cases h with
  | insert h =>
    cases l with
    | nil => exact iff_of_false (not_numberable_tilde (by decide)) (by rintro ⟨x, xs, heq, -⟩; cases heq)
    | cons x l =>
      have hx : x ≠ tilde := fun hx => h (by simp [hx])
      exact iff_of_true (numberable_cons.mpr fun h => absurd h hx) (numberable_cons.mpr fun h => absurd h hx)
  | @count m c j h hnine hc =>
    obtain ⟨x, m, rfl⟩ := exists_cons_of_ne_nil (ne_nil_of_mem h)
    have hbig := big_succ_iff (hl c (by simp)) hnine
    generalize c + 1 = d at hbig ⊢
    simp [numberable_cons, or_and_right, exists_or, hbig, show ¬ Big zero by decide, show ¬ Big nine by decide]
  | @expand m j h =>
    rcases eq_or_ne m [] with rfl | hm
    · exact iff_of_false (not_numberable_tilde (forall_mem_cons.mpr ⟨by decide, not_big_replicate (by decide) _⟩))
        (not_numberable_tilde (not_big_replicate (by decide) _))
    · exact iff_of_true (numberable_of_tilde hm _) (numberable_of_tilde hm _)
  | @shift m x j h hm =>
    have hold := @numberable_of_tilde (m ++ [x]) (by simp) (List.replicate j nine)
    rw [append_assoc, singleton_append] at hold
    exact iff_of_true (numberable_of_tilde hm _) hold
  | last => rfl
  | stuck => rfl

theorem Next.ok_of_not_numberable (h : Next l ok l') (hnot : ¬ Numberable l) : ok = true := by
  cases h with
  | @last x => exact absurd (@numberable_of_tilde [x] (by simp) _) hnot
  | _ => rfl

/-! ## Rank -/

/-- One more than the place of the last byte above `9`. -/
def lastBig (l : List (BitVec 8)) : Nat := (l.rdropWhile fun c => ¬ Big c).length

def value : List (BitVec 8) → Nat
  | [] => 0
  | x :: xs => x.toNat * 256 ^ xs.length + value xs

/-- A tilde appears, then the last big byte goes to the left, then the base gets longer, then its value higher. -/
def rank (l : List (BitVec 8)) : Nat ×ₗ Nat ×ₗ Nat ×ₗ Nat :=
  toLex (if tilde ∈ l then 0 else 1, toLex (lastBig l, toLex (8 - l.length, 256 ^ l.length - value l)))

theorem lastBig_append {r : List (BitVec 8)} (hr : ∀ c ∈ r, ¬ Big c) : lastBig (l ++ r) = lastBig l := by
  induction r using List.reverseRecOn with
  | nil => rw [append_nil]
  | append_singleton r c ih =>
    rw [forall_mem_append, forall_mem_singleton] at hr
    rw [← append_assoc, lastBig, rdropWhile_concat_pos _ _ _ (by simpa using hr.2)]
    exact ih hr.1

theorem lastBig_concat (hc : Big c) : lastBig (l ++ [c]) = l.length + 1 := by
  rw [lastBig, rdropWhile_concat_neg _ _ _ (by simpa using hc), length_append, length_singleton]

theorem lastBig_cons {r : List (BitVec 8)} (hr : ∀ c ∈ r, ¬ Big c) : lastBig (m ++ c :: r) = lastBig (m ++ [c]) := by
  rw [← singleton_append, ← append_assoc, lastBig_append hr]

theorem lastBig_tilde {r : List (BitVec 8)} (hr : ∀ c ∈ r, ¬ Big c) : lastBig (m ++ tilde :: r) = m.length + 1 :=
  (lastBig_cons hr).trans (lastBig_concat (by decide))

theorem value_append (l r : List (BitVec 8)) : value (l ++ r) = value l * 256 ^ r.length + value r := by
  induction l with
  | nil => simp [value]
  | cons x l ih =>
    rw [cons_append, value, ih, value, length_append]
    ring

theorem value_lt (l : List (BitVec 8)) : value l < 256 ^ l.length := by
  induction l with
  | nil => simp [value]
  | cons x l ih =>
    rw [value, length_cons, Nat.pow_succ]
    have hmul := Nat.mul_le_mul_right (256 ^ l.length) (show x.toNat + 1 ≤ 256 by omega)
    rw [Nat.add_mul] at hmul
    omega

theorem value_count {r r' : List (BitVec 8)} (hc : c.toNat < 0xFF) (hlen : r'.length = r.length) :
    value (m ++ c :: r) < value (m ++ (c + 1) :: r') := by
  have hlow := value_lt r
  have hnext : (c + 1).toNat = c.toNat + 1 := by bv_omega
  have hmul : (c.toNat + 1) * 256 ^ r.length = c.toNat * 256 ^ r.length + 256 ^ r.length := by ring
  simp only [value_append, value, length_cons, hlen, hnext]
  omega

theorem Next.rank_lt (h : Next l true l') (hl : ∀ c ∈ l, Letter c) (hlen : l.length ≤ 8) (hnum : Numberable l) :
    rank l' < rank l := by
  have hdigits := fun j => not_big_replicate (show ¬ Big zero by decide) j
  have hnines := fun j => not_big_replicate (show ¬ Big nine by decide) j
  have hone : ∀ j, ∀ c ∈ one :: List.replicate j zero, ¬ Big c := fun j => forall_mem_cons.mpr ⟨by decide, hdigits j⟩
  simp only [rank, Prod.Lex.toLex_lt_toLex]
  cases h with
  | insert h => simp [h]
  | @count m c j h hnine hc =>
    have hletter := hl c (by simp)
    have hbig : lastBig (m ++ [c + 1]) = lastBig (m ++ [c]) := by
      by_cases hb : Big c
      · rw [lastBig_concat hb, lastBig_concat ((big_succ_iff hletter hnine).mpr hb)]
      · have hb' := (big_succ_iff hletter hnine).not.mpr hb
        rw [lastBig_append (forall_mem_singleton.mpr hb), lastBig_append (forall_mem_singleton.mpr hb')]
    rw [lastBig_cons (hdigits _), lastBig_cons (hnines _), hbig]
    simp only [length_append, length_cons, length_replicate] at hlen ⊢
    -- The zeros fill the base, or else there are as many as there were nines.
    rcases Nat.lt_or_ge j (7 - m.length) with hroom | hfull
    · simp [h]
      omega
    obtain rfl : j = 7 - m.length := by omega
    have hvalue := @value_count m c (List.replicate (7 - m.length) nine) (List.replicate (7 - m.length) zero)
      (by unfold Letter at hletter; omega) (by simp)
    have hlt := value_lt (m ++ c :: List.replicate (7 - m.length) nine)
    simp only [length_append, length_cons, length_replicate] at hlt
    generalize c + 1 = d at hvalue ⊢
    simp [h]
    omega
  | @expand m j h =>
    rw [lastBig_tilde (hone j), lastBig_tilde (hnines j)]
    simp
    omega
  | @shift m x j h hm =>
    have hold := @lastBig_tilde (m ++ [x]) _ (hnines j)
    rw [append_assoc, singleton_append] at hold
    rw [lastBig_tilde (hone j), hold]
    simp
  | stuck => exact absurd hnum (not_numberable_tilde (hnines 7))

/-! ## All candidates -/

def candidate (name : List (BitVec 8)) (k : Nat) : List (BitVec 8) := (fun name => (fatNextShortName name).2)^[k] name

def Exhausts (name : List (BitVec 8)) : Prop :=
  ∃ k, (∀ i < k, (fatNextShortName (candidate name i)).1 = true) ∧ (fatNextShortName (candidate name k)).1 = false ∧
    ∀ i j, i < j → j ≤ k → (candidate name i).take 11 ≠ (candidate name j).take 11

theorem candidate_succ (name : List (BitVec 8)) (k : Nat) :
    candidate name (k + 1) = candidate (fatNextShortName name).2 k :=
  Function.iterate_succ_apply ..

/-- The letters of a base that is filled with spaces. -/
def letters (name : List (BitVec 8)) : List (BitVec 8) := (name.take 8).takeWhile (· ≠ space)

theorem letters_pad (hl : ∀ c ∈ l, Letter c) (hlen : l.length ≤ 8) (ext : List (BitVec 8)) :
    letters (pad 8 l ++ ext) = l := by
  have hspace : ∀ c ∈ l, decide (c ≠ space) = true := fun c hc => by
    simp only [decide_eq_true_eq]
    rintro rfl
    exact absurd (hl _ hc) (by decide)
  rw [letters, take_left' (pad_length hlen), pad, takeWhile_append_of_pos hspace]
  simp

theorem exhausts_of_numberable (ext : List (BitVec 8)) (hl : ∀ c ∈ l, Letter c) (hlen : l.length ≤ 8)
    (hnum : Numberable l) : ∃ k, (∀ i < k, (fatNextShortName (candidate (pad 8 l ++ ext) i)).1 = true) ∧
      (fatNextShortName (candidate (pad 8 l ++ ext) k)).1 = false ∧
      ∀ i j, i < j → j ≤ k → rank (letters (candidate (pad 8 l ++ ext) j)) < rank (letters (candidate (pad 8 l ++ ext) i)) := by
  induction hr : rank l using WellFoundedLT.induction generalizing l with
  | _ n ih =>
    obtain ⟨ok, l', hnext, h⟩ := next_spec hl hlen ext
    cases ok with
    | false => exact ⟨0, fun i hi => absurd hi (Nat.not_lt_zero i), congrArg Prod.fst hnext, fun i j hij hj => by omega⟩
    | true =>
      have hrank := h.rank_lt hl hlen hnum
      have hl' := h.letters hl
      have hlen' := h.length_le hlen
      obtain ⟨k, hok, hlast, hdesc⟩ := ih _ (hr ▸ hrank) hl' hlen' ((h.numberable_iff hl).mpr hnum) rfl
      have hcand : ∀ i, candidate (pad 8 l ++ ext) (i + 1) = candidate (pad 8 l' ++ ext) i := by
        intro i
        rw [candidate_succ, hnext]
      refine ⟨k + 1, fun i hi => ?_, (hcand k).symm ▸ hlast, fun i j hij hj => ?_⟩
      · cases i with
        | zero => exact congrArg Prod.fst hnext
        | succ i => exact (hcand i).symm ▸ hok i (by omega)
      obtain ⟨j, rfl⟩ := Nat.exists_eq_succ_of_ne_zero (by omega : j ≠ 0)
      rw [Nat.succ_eq_add_one, hcand]
      cases i with
      | zero =>
        have hfirst : rank (letters (candidate (pad 8 l' ++ ext) 0)) < rank (letters (candidate (pad 8 l ++ ext) 0)) := by
          change rank (letters (pad 8 l' ++ ext)) < rank (letters (pad 8 l ++ ext))
          rwa [letters_pad hl hlen, letters_pad hl' hlen']
        rcases Nat.eq_zero_or_pos j with rfl | hpos
        · exact hfirst
        · exact (hdesc 0 j hpos (by omega)).trans hfirst
      | succ i =>
        rw [hcand]
        exact hdesc i j (by omega) (by omega)

theorem next_forever (ext : List (BitVec 8)) (hl : ∀ c ∈ l, Letter c) (hlen : l.length ≤ 8) (hnot : ¬ Numberable l)
    (k : Nat) : (fatNextShortName (candidate (pad 8 l ++ ext) k)).1 = true := by
  induction k generalizing l with
  | zero =>
    obtain ⟨ok, l', hnext, h⟩ := next_spec hl hlen ext
    exact (congrArg Prod.fst hnext).trans (h.ok_of_not_numberable hnot)
  | succ k ih =>
    obtain ⟨ok, l', hnext, h⟩ := next_spec hl hlen ext
    rw [candidate_succ, hnext]
    exact ih (h.letters hl) (h.length_le hlen) fun hnum => hnot ((h.numberable_iff hl).mp hnum)

theorem exhausts_iff (ext : List (BitVec 8)) (hl : ∀ c ∈ l, Letter c) (hlen : l.length ≤ 8) :
    Exhausts (pad 8 l ++ ext) ↔ Numberable l := by
  constructor
  · rintro ⟨k, -, hlast, -⟩
    by_contra hnot
    rw [next_forever ext hl hlen hnot k] at hlast
    cases hlast
  intro hnum
  obtain ⟨k, hok, hlast, hdesc⟩ := exhausts_of_numberable ext hl hlen hnum
  refine ⟨k, hok, hlast, fun i j hij hj heq => ?_⟩
  have htake := congrArg (List.take 8) heq
  rw [take_take, take_take] at htake
  have hrank := hdesc i j hij hj
  unfold letters at hrank
  change (candidate _ i).take 8 = (candidate _ j).take 8 at htake
  rw [htake] at hrank
  exact lt_irrefl _ hrank

end Kolibri.Fat
