import Mathlib

/-! # Blocks that tile an interval

`blk x k n` says that a block of kind `k` and size `n` stands at `x`, whatever that means.
-/

namespace Kolibri.Tiling

variable {κ : Type*} {blk blk' : ℕ → κ → ℕ → Prop}

def Tiles (blk : ℕ → κ → ℕ → Prop) : ℕ → List (κ × ℕ) → ℕ → Prop
  | a, [], b => a = b
  | a, (k, n) :: l, b => 0 < n ∧ blk a k n ∧ Tiles blk (a + n) l b

/-- Block `(k, n)` of the list stands at `x`, if the first one stands at `a`. -/
def Occurs : ℕ → List (κ × ℕ) → ℕ → κ → ℕ → Prop
  | _, [], _, _, _ => False
  | a, (k, n) :: l, x, k', n' => (x = a ∧ k' = k ∧ n' = n) ∨ Occurs (a + n) l x k' n'

/-! ## Parts of a tiling -/

variable {a b n x p y : ℕ} {l l' l1 l2 mid : List (κ × ℕ)} {k : κ}

theorem tiles_length_le (h : Tiles blk a l b) : a + l.length ≤ b := by
  induction l generalizing a with
  | nil => exact Nat.le_of_eq h
  | cons block l ih =>
    obtain ⟨hpos, -, hl⟩ := h
    have hle := ih hl
    rw [List.length_cons]
    omega

theorem tiles_append : Tiles blk a (l ++ l') b ↔ ∃ c, Tiles blk a l c ∧ Tiles blk c l' b := by
  induction l generalizing a with
  | nil => simp [Tiles]
  | cons block l ih =>
    simp only [List.cons_append, Tiles, ih]
    constructor
    · rintro ⟨hpos, hblk, c, hl, hl'⟩
      exact ⟨c, ⟨hpos, hblk, hl⟩, hl'⟩
    · rintro ⟨c, ⟨hpos, hblk, hl⟩, hl'⟩
      exact ⟨hpos, hblk, c, hl, hl'⟩

theorem tiles_occurs (h : Tiles blk a l b) (hx : Occurs a l x k n) : 0 < n ∧ blk x k n ∧ a ≤ x ∧ x + n ≤ b := by
  induction l generalizing a with
  | nil => exact hx.elim
  | cons block l ih =>
    obtain ⟨hpos, hhead, hl⟩ := h
    have hle := tiles_length_le hl
    rcases hx with ⟨rfl, rfl, rfl⟩ | hx
    · exact ⟨hpos, hhead, Nat.le_refl x, by omega⟩
    · obtain ⟨hn, hblk, hlo, hhi⟩ := ih hl hx
      exact ⟨hn, hblk, by omega, hhi⟩

theorem occurs_append {c : ℕ} (h : Tiles blk a l c) :
    Occurs a (l ++ l') x k n ↔ Occurs a l x k n ∨ Occurs c l' x k n := by
  induction l generalizing a with
  | nil =>
    obtain rfl : a = c := h
    simp [Occurs]
  | cons block l ih =>
    simp [Occurs, ih h.2.2, or_assoc]

section

variable (h : Tiles blk a l b)
include h

theorem tiles_cut (hx : Occurs a l x k n) :
    ∃ l1 l2, l = l1 ++ (k, n) :: l2 ∧ Tiles blk a l1 x ∧ Tiles blk (x + n) l2 b := by
  induction l generalizing a with
  | nil => exact hx.elim
  | cons block l ih =>
    obtain ⟨hpos, hhead, hl⟩ := h
    rcases hx with ⟨rfl, rfl, rfl⟩ | hx
    · exact ⟨[], l, rfl, rfl, hl⟩
    · obtain ⟨l1, l2, rfl, h1, h2⟩ := ih hl hx
      exact ⟨block :: l1, l2, rfl, ⟨hpos, hhead, h1⟩, h2⟩

theorem tiles_cover (ha : a ≤ p) (hb : p < b) : ∃ x k n, Occurs a l x k n ∧ x ≤ p ∧ p < x + n := by
  induction l generalizing a with
  | nil =>
    have hab : a = b := h
    omega
  | cons block l ih =>
    obtain ⟨k, n⟩ := block
    rcases Nat.lt_or_ge p (a + n) with hp | hp
    · exact ⟨a, k, n, .inl ⟨rfl, rfl, rfl⟩, ha, hp⟩
    · obtain ⟨x, k', n', hx, hcover⟩ := ih h.2.2 hp
      exact ⟨x, k', n', .inr hx, hcover⟩

theorem occurs_apart {n' : ℕ} {k' : κ} (hx : Occurs a l x k n) (hy : Occurs a l y k' n') :
    x + n ≤ y ∨ y + n' ≤ x ∨ (x = y ∧ k = k' ∧ n = n') := by
  induction l generalizing a with
  | nil => exact hx.elim
  | cons block l ih =>
    obtain ⟨hpos, hhead, hl⟩ := h
    rcases hx with ⟨rfl, rfl, rfl⟩ | hx
    · rcases hy with ⟨rfl, rfl, rfl⟩ | hy
      · exact .inr (.inr ⟨rfl, rfl, rfl⟩)
      · exact .inl (tiles_occurs hl hy).2.2.1
    · rcases hy with ⟨rfl, rfl, rfl⟩ | hy
      · exact .inr (.inl (tiles_occurs hl hx).2.2.1)
      · exact ih hl hx hy

/-- The start of the block in which `p` lies, and `p` itself if it lies in none. -/
def blockOf : ℕ → List (κ × ℕ) → ℕ → ℕ
  | _, [], p => p
  | a, (_, n) :: l, p => if a ≤ p ∧ p < a + n then a else blockOf (a + n) l p

theorem blockOf_lt (hp : p < a) : blockOf a l p = p := by
  induction l generalizing a with
  | nil => rfl
  | cons block l ih =>
    unfold blockOf
    rw [if_neg (by omega)]
    exact ih h.2.2 (by omega)

theorem blockOf_occurs (hx : Occurs a l x k n) (hlo : x ≤ p) (hhi : p < x + n) : blockOf a l p = x := by
  induction l generalizing a with
  | nil => exact hx.elim
  | cons block l ih =>
    unfold blockOf
    rcases hx with ⟨rfl, rfl, rfl⟩ | hx
    · exact if_pos ⟨hlo, hhi⟩
    · have hstart := (tiles_occurs h.2.2 hx).2.2.1
      rw [if_neg (by omega)]
      exact ih h.2.2 hx

/-! ## Changing a tiling -/

theorem tiles_mono (hblk : ∀ x k n, Occurs a l x k n → blk x k n → blk' x k n) : Tiles blk' a l b := by
  induction l generalizing a with
  | nil => exact h
  | cons block l ih =>
    obtain ⟨hpos, hhead, hl⟩ := h
    refine ⟨hpos, hblk a _ _ (.inl ⟨rfl, rfl, rfl⟩) hhead, ih hl ?_⟩
    intro x k n hx
    exact hblk x k n (.inr hx)

end

theorem tiles_join (h1 : Tiles blk a l1 x) (hmid : Tiles blk x mid y) (h2 : Tiles blk y l2 b) :
    Tiles blk a (l1 ++ (mid ++ l2)) b :=
  tiles_append.mpr ⟨x, h1, tiles_append.mpr ⟨y, hmid, h2⟩⟩

theorem occurs_edit {seg : List (κ × ℕ)} (h1 : Tiles blk a l1 x) (hseg : Tiles blk x seg y) (h2 : Tiles blk y l2 b)
    (h1' : Tiles blk' a l1 x) (hmid : Tiles blk' x mid y) (z : ℕ) (k : κ) (n : ℕ) :
    Occurs a (l1 ++ (mid ++ l2)) z k n ↔
      (Occurs a (l1 ++ (seg ++ l2)) z k n ∧ ¬ Occurs x seg z k n) ∨ Occurs x mid z k n := by
  rw [occurs_append h1', occurs_append hmid, occurs_append h1, occurs_append hseg]
  have hleft : Occurs a l1 z k n → ¬ Occurs x seg z k n := by
    intro hz hz'
    have hlo := tiles_occurs h1 hz
    have hhi := tiles_occurs hseg hz'
    omega
  have hright : Occurs y l2 z k n → ¬ Occurs x seg z k n := by
    intro hz hz'
    have hlo := tiles_occurs h2 hz
    have hhi := tiles_occurs hseg hz'
    omega
  tauto

end Kolibri.Tiling
