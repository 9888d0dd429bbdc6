import Mathlib

/-! # Short names (`fat_name.rs`, `fs/fat.inc`)

8 bytes for the base and 3 for the extension, filled with spaces.
-/

namespace Kolibri.Fat

open List Nat

/-! ## Code -/

def space : BitVec 8 := 0x20
def dot : BitVec 8 := 0x2E
def zero : BitVec 8 := 0x30
def one : BitVec 8 := 0x31
def nine : BitVec 8 := 0x39
def tilde : BitVec 8 := 0x7E

def findTilde (name : List (BitVec 8)) : Nat → Option Nat
  | 0 => none
  | i + 1 => if name.getD i 0 = tilde then some i else findTilde name i

/-- In front of the buffer is the top byte of the return address, which is no space. -/
def contentEnd (name : List (BitVec 8)) : Nat → Nat
  | 0 => 0
  | p + 1 => if name.getD p 0 ≠ space then p + 1 else contentEnd name p

def zerofillToEnd (name : List (BitVec 8)) (start : Nat) : List (BitVec 8) :=
  (List.range 8).foldl (fun name i => if start ≤ i then name.set i zero else name) name

def expandLoop : Nat → List (BitVec 8) → Nat → BitVec 8 → List (BitVec 8)
  | 0, name, _, _ => name
  | fuel + 1, name, pos, al =>
    let old := name.getD pos 0
    let name := name.set pos al
    if old = space then name else expandLoop fuel name (pos + 1) zero

def walk (name : List (BitVec 8)) : Nat → Nat → Bool × List (BitVec 8)
  | 0, _ => (true, name)
  | edi + 1, spaceCount =>
    let b := name.getD edi 0
    if b = tilde then
      if spaceCount = 0 then
        if edi = 1 then (false, name)
        else if edi = 0 then (true, name)
        else
          let p := edi - 1
          (true, zerofillToEnd ((name.set p tilde).set (p + 1) one) (p + 2))
      else (true, expandLoop 8 name (edi + 1) one)
    else if b = space then walk name edi (spaceCount + 1)
    else if b ≠ nine then (true, zerofillToEnd (name.set edi (b + 1)) (edi + 1))
    else walk name edi spaceCount

def fatNextShortName (name : List (BitVec 8)) : Bool × List (BitVec 8) :=
  match findTilde name 8 with
  | none =>
    let pos := if name.getD 6 0 = space ∧ name.getD 7 0 = space then contentEnd name 6 else 6
    (true, (name.set pos tilde).set (pos + 1) one)
  | some _ => walk name 8 0

def fatShortCharOk (c : BitVec 8) : Bool :=
  c = 0x21 || (0x23 ≤ c && c ≤ 0x29) || (c = 0x2D || c = 0x2E) || (0x30 ≤ c && c ≤ 0x39) || (0x40 ≤ c && c ≤ 0x5A) ||
    (c = 0x5E || c = 0x5F) || (0x60 ≤ c && c ≤ 0x7A) || (c = 0x7B || c = 0x7D || c = 0x7E)

def cp866ToUpper (ch : BitVec 8) : BitVec 8 :=
  if ch < 0x61 then ch
  else if ch ≤ 0x7A then ch - 32
  else if ch < 0xA0 then ch
  else if ch < 0xB0 then ch - 32
  else if ch < 0xE0 then ch
  else if ch < 0xF0 then ch - 0x50
  else if 0xF7 < ch then ch
  else ch &&& 0xFE

structure GenState where
  out : List (BitVec 8)
  edi : Nat
  /-- Free places in the base or the extension. -/
  bl : Nat
  /-- Bit 0 of `bh`. -/
  lossy : Bool
  /-- Bit 1 of `bh`. -/
  dotSeen : Bool
  saved : Nat

def rewind : Nat → List (BitVec 8) → Nat → List (BitVec 8)
  | 0, out, _ => out
  | n + 1, out, ebx => rewind n ((out.set (ebx - 1) (out.getD (8 + n) 0)).set (8 + n) space) (ebx - 1)

def genChar (s : GenState) (al : BitVec 8) : GenState :=
  if 0x80 ≤ al then { s with lossy := true }
  else if ¬ fatShortCharOk al then { s with lossy := true }
  else if al = dot then
    if ¬ s.dotSeen then
      if s.bl = 8 then { s with lossy := true }
      else { s with saved := s.edi, dotSeen := true, edi := 8, bl := 3 }
    else
      let ebx := s.saved + s.edi - 8
      let ebx := if 8 ≤ ebx then 8 else ebx
      { out := rewind (s.edi - 8) s.out ebx, edi := 8, bl := 3, lossy := true, dotSeen := true, saved := ebx }
  else if s.bl ≠ 0 then { s with bl := s.bl - 1, out := s.out.set s.edi (cp866ToUpper al), edi := s.edi + 1 }
  else { s with lossy := true }

def genLoop (s : GenState) : List (BitVec 8) → GenState
  | [] => s
  | al :: src => if al = 0 then s else genLoop (genChar s al) src

def fatGenShortName (src : List (BitVec 8)) : List (BitVec 8) :=
  let s := genLoop ⟨List.replicate 12 space, 0, 8, false, false, 0⟩ src
  if s.lossy then (fatNextShortName s.out).2 else s.out

/-- The loop in `fat_CreateFile`: a name that the directory has is replaced by the next one. -/
def testShortNameLoop (exists_ : List (BitVec 8) → Bool) : Nat → List (BitVec 8) → Option (Option (List (BitVec 8)))
  | 0, _ => none
  | fuel + 1, name =>
    if exists_ name then
      let (ok, name) := fatNextShortName name
      if ok then testShortNameLoop exists_ fuel name else some none
    else some (some name)

/-! ## Lists by index -/

section Lists

variable {α : Type*}

theorem getD_append_length (l r : List α) (x d : α) : (l ++ x :: r).getD l.length d = x := by
  simp

theorem set_append_length (l r : List α) (x y : α) : (l ++ x :: r).set l.length y = l ++ y :: r := by
  rw [set_append_right _ _ (Nat.le_refl _), Nat.sub_self, set_cons_zero]

theorem last_split (p : α → Prop) (l : List α) :
    (∀ x ∈ l, ¬ p x) ∨ ∃ s c r, l = s ++ c :: r ∧ p c ∧ ∀ x ∈ r, ¬ p x := by
  induction l with
  | nil => exact .inl fun x hx => absurd hx (not_mem_nil)
  | cons y l ih =>
    rcases ih with hnone | ⟨s, c, r, rfl, hc, hr⟩
    · by_cases hy : p y
      · exact .inr ⟨[], y, l, rfl, hy, hnone⟩
      · exact .inl (forall_mem_cons.mpr ⟨hy, hnone⟩)
    · exact .inr ⟨y :: s, c, r, rfl, hc, hr⟩

end Lists

theorem zerofillToEnd_eq {b : List (BitVec 8)} (hlen : b.length = 8) (ext : List (BitVec 8)) {n : Nat} (hn : n ≤ 8) :
    zerofillToEnd (b ++ ext) n = b.take n ++ List.replicate (8 - n) zero ++ ext := by
  match b, hlen with
  | [_, _, _, _, _, _, _, _], _ => interval_cases n <;> rfl

/-! ## What the next name is -/

/-- Letters and the spaces behind them. -/
def pad (n : Nat) (l : List (BitVec 8)) : List (BitVec 8) := l ++ List.replicate (n - l.length) space

def Letter (c : BitVec 8) : Prop := 0x20 < c.toNat ∧ c.toNat ≤ 0x7E
  deriving Decidable

/-- The next base for one of letters. -/
inductive Next : List (BitVec 8) → Bool → List (BitVec 8) → Prop
  | insert {l} (h : tilde ∉ l) : Next l true (l.take 6 ++ [tilde, one])
  | count {m c j} (h : tilde ∈ m) (hnine : c ≠ nine) (htilde : c ≠ tilde) :
      Next (m ++ c :: List.replicate j nine) true (m ++ (c + 1) :: List.replicate (7 - m.length) zero)
  | expand {m j} (h : m.length + 1 + j < 8) :
      Next (m ++ tilde :: List.replicate j nine) true (m ++ tilde :: one :: List.replicate j zero)
  | shift {m x j} (h : m.length + 2 + j = 8) (hm : m ≠ []) :
      Next (m ++ x :: tilde :: List.replicate j nine) true (m ++ tilde :: one :: List.replicate j zero)
  | last {x} : Next (x :: tilde :: List.replicate 6 nine) false (x :: tilde :: List.replicate 6 nine)
  | stuck : Next (tilde :: List.replicate 7 nine) true (tilde :: List.replicate 7 nine)

variable {l m ext : List (BitVec 8)} {c : BitVec 8} {n j k : Nat}

theorem pad_length (h : l.length ≤ n) : (pad n l).length = n := by
  unfold pad
  rw [length_append, length_replicate]
  omega

theorem pad_of_length (h : l.length = n) : pad n l = l := by
  unfold pad
  simp [h]

theorem set_pad {t : List (BitVec 8)} (c : BitVec 8) (h : l.length < n) :
    (pad n l ++ t).set l.length c = pad n (l ++ [c]) ++ t := by
  have hsplit : n - l.length = (n - (l.length + 1)) + 1 := by omega
  unfold pad
  rw [hsplit, replicate_succ, append_assoc, cons_append, set_append_length, length_append, length_singleton]
  simp

theorem findTilde_eq_none_iff (name : List (BitVec 8)) (n : Nat) : findTilde name n = none ↔ tilde ∉ name.take n := by
  induction n with
  | zero => simp [findTilde]
  | succ n ih =>
    have hget : name.getD n 0 = tilde ↔ name[n]? = some tilde := by
      rw [getD_eq_getElem?_getD]
      cases name[n]? <;> simp [tilde]
    unfold findTilde
    rw [take_add_one, mem_append, Option.mem_toList, ← hget, not_or, ← ih]
    split_ifs with hn <;> simp only [hn, not_true_eq_false, not_false_eq_true, and_false, and_true]

theorem walk_nine (hlen : l.length = k) : walk (l ++ nine :: ext) (k + 1) n = walk (l ++ nine :: ext) k n := by
  subst hlen
  rw [walk, getD_append_length, if_neg (by decide), if_neg (by decide), if_neg (by decide)]

theorem walk_space (hlen : l.length = k) : walk (l ++ space :: ext) (k + 1) n = walk (l ++ space :: ext) k (n + 1) := by
  subst hlen
  rw [walk, getD_append_length, if_neg (by decide), if_pos rfl]

theorem walk_nines (l : List (BitVec 8)) (j : Nat) (ext : List (BitVec 8)) (n : Nat) :
    walk (l ++ List.replicate j nine ++ ext) (l.length + j) n = walk (l ++ List.replicate j nine ++ ext) l.length n := by
  induction j generalizing ext with
  | zero => rfl
  | succ j ih =>
    have hname : l ++ List.replicate (j + 1) nine ++ ext = l ++ List.replicate j nine ++ nine :: ext := by
      simp [replicate_succ']
    rw [hname, ← add_assoc, walk_nine (by simp), ih]

theorem walk_spaces (l : List (BitVec 8)) (k : Nat) (ext : List (BitVec 8)) (n : Nat) :
    walk (l ++ List.replicate k space ++ ext) (l.length + k) n =
      walk (l ++ List.replicate k space ++ ext) l.length (n + k) := by
  induction k generalizing ext n with
  | zero => rfl
  | succ k ih =>
    have hname : l ++ List.replicate (k + 1) space ++ ext = l ++ List.replicate k space ++ space :: ext := by
      simp [replicate_succ']
    rw [hname, ← add_assoc, walk_space (by simp), ih, add_right_comm]
    rfl

/-- With a tilde the walk stops at the last byte that is neither a space nor a nine. -/
theorem next_eq_walk (htilde : tilde ∈ m ++ [c]) (hlen : m.length + 1 + j ≤ 8) (ext : List (BitVec 8)) :
    fatNextShortName (pad 8 (m ++ c :: List.replicate j nine) ++ ext) =
      walk (m ++ c :: (List.replicate j nine ++ List.replicate (7 - m.length - j) space ++ ext)) (m.length + 1)
        (7 - m.length - j) := by
  have hlen' : (m ++ c :: List.replicate j nine).length = m.length + 1 + j := by
    simp
    omega
  have hsome : findTilde (pad 8 (m ++ c :: List.replicate j nine) ++ ext) 8 ≠ none := by
    rw [ne_eq, findTilde_eq_none_iff, take_left' (pad_length (by omega)), not_not]
    simp only [mem_append, mem_singleton] at htilde
    simp only [pad, mem_append, mem_cons]
    tauto
  obtain ⟨i, hi⟩ := Option.ne_none_iff_exists'.mp hsome
  have hspaces := walk_spaces (m ++ c :: List.replicate j nine) (7 - m.length - j) ext 0
  have hnines := walk_nines (m ++ [c]) j (List.replicate (7 - m.length - j) space ++ ext) (7 - m.length - j)
  rw [hlen', show m.length + 1 + j + (7 - m.length - j) = 8 by omega, zero_add] at hspaces
  unfold fatNextShortName
  rw [hi]
  rw [pad, hlen', show 8 - (m.length + 1 + j) = 7 - m.length - j by omega, hspaces]
  simpa using hnines

theorem next_count (h : tilde ∈ m) (hlen : m.length + 1 + j ≤ 8) (hnine : c ≠ nine) (htilde : c ≠ tilde)
    (hspace : c ≠ space) :
    fatNextShortName (pad 8 (m ++ c :: List.replicate j nine) ++ ext) =
      (true, pad 8 (m ++ (c + 1) :: List.replicate (7 - m.length) zero) ++ ext) := by
  rw [next_eq_walk (mem_append_left _ h) hlen, walk, getD_append_length, if_neg htilde, if_neg hspace, if_pos hnine,
    set_append_length, ← cons_append, ← append_assoc, zerofillToEnd_eq (by simp; omega) ext (by omega),
    take_append, pad_of_length (by simp; omega)]
  simp

theorem expandLoop_eq (l : List (BitVec 8)) (k : Nat) (rest : List (BitVec 8)) (al : BitVec 8) (fuel : Nat)
    (hfuel : k < fuel) :
    expandLoop fuel (l ++ List.replicate k nine ++ space :: rest) l.length al =
      l ++ al :: List.replicate k zero ++ rest := by
  induction k generalizing l al fuel with
  | zero =>
    obtain ⟨fuel, rfl⟩ := exists_eq_succ_of_ne_zero (by omega : fuel ≠ 0)
    unfold expandLoop
    rw [replicate_zero, append_nil, getD_append_length, if_pos rfl, set_append_length]
    simp
  | succ k ih =>
    obtain ⟨fuel, rfl⟩ := exists_eq_succ_of_ne_zero (by omega : fuel ≠ 0)
    have hname : l ++ List.replicate (k + 1) nine ++ space :: rest =
        l ++ nine :: (List.replicate k nine ++ space :: rest) := by simp [replicate_succ]
    unfold expandLoop
    rw [hname, getD_append_length, if_neg (by decide), set_append_length]
    have hstep := ih (l ++ [al]) zero fuel (by omega)
    simpa [replicate_succ] using hstep

theorem next_expand (hlen : m.length + 1 + j < 8) :
    fatNextShortName (pad 8 (m ++ tilde :: List.replicate j nine) ++ ext) =
      (true, pad 8 (m ++ tilde :: one :: List.replicate j zero) ++ ext) := by
  obtain ⟨k, hk⟩ : ∃ k, 7 - m.length - j = k + 1 := ⟨6 - m.length - j, by omega⟩
  have hexpand := expandLoop_eq (m ++ [tilde]) j (List.replicate k space ++ ext) one 8 (by omega)
  rw [next_eq_walk (by simp) hlen.le, walk, getD_append_length, if_pos rfl, if_neg (by omega), hk, replicate_succ]
  have hpad : 8 - (m ++ tilde :: one :: List.replicate j zero).length = k := by
    simp
    omega
  rw [pad, hpad]
  simpa using hexpand

theorem next_full (hlen : m.length + 1 + j = 8) :
    fatNextShortName (pad 8 (m ++ tilde :: List.replicate j nine) ++ ext) =
      if m.length = 1 then (false, m ++ tilde :: List.replicate j nine ++ ext)
      else if m.length = 0 then (true, m ++ tilde :: List.replicate j nine ++ ext)
      else (true, m.dropLast ++ tilde :: one :: List.replicate j zero ++ ext) := by
  rw [next_eq_walk (by simp) hlen.le, walk, getD_append_length, if_pos rfl, if_pos (by omega),
    show 7 - m.length - j = 0 by omega]
  simp only [replicate_zero, append_nil, append_assoc, cons_append]
  refine if_congr Iff.rfl rfl (ite_congr rfl (fun _ => rfl) fun hzero => ?_)
  -- The tilde and `1` take the last place of the prefix and the tilde's own.
  obtain ⟨p, x, rfl⟩ : ∃ p x, m = p ++ [x] :=
    ⟨m.dropLast, m.getLast (by rintro rfl; exact hzero rfl), (dropLast_append_getLast _).symm⟩
  have hset := set_append_length (p ++ [tilde]) (List.replicate j nine ++ ext) tilde one
  have hfill := @zerofillToEnd_eq (p ++ tilde :: one :: List.replicate j nine) (by simp at hlen ⊢; omega) ext
    (p.length + 2) (by simp at hlen; omega)
  simp only [length_append, length_singleton] at hlen hset ⊢
  rw [Nat.add_sub_cancel, append_assoc, singleton_append, set_append_length]
  simp only [append_assoc, nil_append, cons_append] at hset hfill
  rw [hset, hfill, dropLast_concat, show 8 - (p.length + 2) = j by omega, take_append]
  simp

theorem contentEnd_spaces (l : List (BitVec 8)) (k : Nat) (ext : List (BitVec 8)) (hl : space ∉ l) :
    contentEnd (l ++ List.replicate k space ++ ext) (l.length + k) = l.length := by
  induction k generalizing ext with
  | zero =>
    rcases eq_nil_or_concat' l with rfl | ⟨l, x, rfl⟩
    · rfl
    · have hx : x ≠ space := fun h => hl (by simp [h])
      rw [add_zero, length_append, length_singleton, contentEnd, replicate_zero, append_nil, append_assoc,
        singleton_append, getD_append_length, if_pos hx]
  | succ k ih =>
    have hname : l ++ List.replicate (k + 1) space ++ ext = l ++ List.replicate k space ++ space :: ext := by
      simp [replicate_succ']
    have hget := getD_append_length (l ++ List.replicate k space) ext space 0
    rw [length_append, length_replicate] at hget
    rw [hname, ← add_assoc, contentEnd, hget, if_neg (by simp), ih]

theorem next_insert (hl : space ∉ l) (hlen : l.length ≤ 8) (h : tilde ∉ l) (ext : List (BitVec 8)) :
    fatNextShortName (pad 8 l ++ ext) = (true, pad 8 (l.take 6 ++ [tilde, one]) ++ ext) := by
  have hnone : findTilde (pad 8 l ++ ext) 8 = none := by
    rw [findTilde_eq_none_iff, take_left' (pad_length hlen)]
    simp [pad, h, show tilde ≠ space by decide]
  unfold fatNextShortName
  rw [hnone]
  by_cases hshort : l.length ≤ 6
  · have hspace : ∀ i, l.length ≤ i → i < 8 → (pad 8 l ++ ext).getD i 0 = space := by
      intro i hi hi'
      rw [pad, append_assoc, getD_append_right _ _ _ _ hi, getD_append _ _ _ _ (by simp; omega), getD_replicate _ (by omega)]
    have hend := contentEnd_spaces l (6 - l.length) (List.replicate 2 space ++ ext) hl
    have hname : l ++ List.replicate (6 - l.length) space ++ (List.replicate 2 space ++ ext) = pad 8 l ++ ext := by
      rw [pad, append_assoc, append_assoc, ← append_assoc (List.replicate _ _), ← replicate_add]
      congr 4
      omega
    rw [hname, Nat.add_sub_cancel' hshort] at hend
    have hset := @set_pad (l ++ [tilde]) 8 ext one (by simp; omega)
    rw [length_append, length_singleton] at hset
    dsimp only
    rw [if_pos ⟨hspace 6 hshort (by omega), hspace 7 (by omega) (by omega)⟩, hend, set_pad tilde (by omega), hset,
      take_of_length_le hshort]
    simp
  · have hsix : (pad 8 l ++ ext).getD 6 0 ≠ space := by
      rw [pad, append_assoc, getD_append _ _ _ _ (by omega), getD_eq_getElem _ _ (by omega)]
      exact fun heq => hl (heq ▸ getElem_mem _)
    rw [if_neg fun hboth => hsix hboth.1]
    match l, hlen, hshort with
    | [a, b, c, d, e, f, g], _, _ => rfl
    | [a, b, c, d, e, f, g, h], _, _ => rfl

theorem next_spec (hl : ∀ c ∈ l, Letter c) (hlen : l.length ≤ 8) (ext : List (BitVec 8)) :
    ∃ ok l', fatNextShortName (pad 8 l ++ ext) = (ok, pad 8 l' ++ ext) ∧ Next l ok l' := by
  have hspace : space ∉ l := fun h => absurd (hl _ h) (by decide)
  by_cases h : tilde ∈ l
  · rcases last_split (· ≠ nine) l with hnone | ⟨m, c, r, rfl, hc, hr⟩
    · exact absurd (by decide) (hnone tilde h)
    obtain ⟨j, rfl⟩ : ∃ j, r = List.replicate j nine := ⟨r.length, eq_replicate_of_mem fun x hx => not_not.mp (hr x hx)⟩
    have hlen' : m.length + 1 + j ≤ 8 := by
      simp at hlen
      omega
    by_cases htilde : c = tilde
    · subst htilde
      rcases hlen'.lt_or_eq with hroom | hfull
      · exact ⟨_, _, next_expand hroom, .expand hroom⟩
      have hnext := @next_full m ext j hfull
      rcases eq_nil_or_concat' m with rfl | ⟨p, x, rfl⟩
      · obtain rfl : j = 7 := by
          simp at hfull
          omega
        exact ⟨_, _, hnext, .stuck⟩
      rcases p with - | ⟨y, p⟩
      · obtain rfl : j = 6 := by
          simp at hfull
          omega
        exact ⟨_, _, hnext, .last⟩
      have hlen'' : (y :: p).length + 2 + j = 8 := by
        simp at hfull ⊢
        omega
      rw [if_neg (by simp), if_neg (by simp), dropLast_concat] at hnext
      rw [append_assoc, singleton_append] at hnext ⊢
      refine ⟨_, _, ?_, .shift hlen'' (cons_ne_nil _ _)⟩
      rw [hnext, pad_of_length (by simp at hlen'' ⊢; omega)]
    · have hm : tilde ∈ m := by
        simpa [Ne.symm htilde, show tilde ≠ nine by decide] using h
      exact ⟨_, _, next_count hm hlen' hc htilde fun h => hspace (by simp [h]), .count hm hc htilde⟩
  · exact ⟨_, _, next_insert hspace hlen h ext, .insert h⟩

end Kolibri.Fat
