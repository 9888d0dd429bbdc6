import Mathlib

/-! # The order of the windows (`gui/window.inc`)

`WIN_STACK` has the position of each window and `WIN_POS` the window at each position, from 1 on.
-/

namespace Kolibri.WindowStack

open Function List

structure Windows where
  threadCount : Nat
  winStack : Nat → BitVec 16
  winPos : Nat → BitVec 16
  flWstyle : Nat → BitVec 8
  flRedraw : Nat → BitVec 8
  keyCount : BitVec 8
  btnCount : BitVec 8
  mouseScrollH : BitVec 16
  mouseScrollV : BitVec 16

/-! ## The code -/

def eachThread {σ : Type*} (n : Nat) (f : σ → Nat → σ) (s : σ) : σ := (List.range' 1 n).foldl f s

def moveDown (bx : BitVec 16) (winStack : Nat → BitVec 16) (eax : Nat) : Nat → BitVec 16 :=
  if winStack eax ≤ bx then winStack else update winStack eax (winStack eax - 1)

def moveUp (bx : BitVec 16) (winStack : Nat → BitVec 16) (eax : Nat) : Nat → BitVec 16 :=
  if bx ≤ winStack eax then winStack else update winStack eax (winStack eax + 1)

def setPos (winStack winPos : Nat → BitVec 16) (eax : Nat) : Nat → BitVec 16 :=
  update winPos (winStack eax).toNat (BitVec.ofNat 16 eax)

variable (s : Windows)

/-- The others are moved, the window gets its position, and `WIN_POS` is made anew. -/
def restack (esi : Nat) (move : BitVec 16 → (Nat → BitVec 16) → Nat → Nat → BitVec 16)
    (position : BitVec 16) : Windows :=
  let bx := s.winStack (s.winPos esi).toNat
  let winStack := eachThread s.threadCount (move bx) s.winStack
  let winStack := update winStack (s.winPos esi).toNat position
  { s with
    winStack
    winPos := eachThread s.threadCount (setPos winStack) s.winPos
    keyCount := 0
    btnCount := 0
    mouseScrollH := 0
    mouseScrollV := 0 }

def redrawTop : Windows :=
  let top := (s.winPos s.threadCount).toNat
  let al := s.flWstyle top &&& 0x0f
  if al = 3 ∨ al = 4 then { s with flRedraw := update s.flRedraw top 1 } else s

def windowActivate (esi : Nat) : Windows :=
  restack (redrawTop s) esi moveDown (BitVec.ofNat 16 s.threadCount)

def windowDeactivate (esi : Nat) : Windows := restack s esi moveUp 1

/-! ## What the tables are for -/

def Windows.position (window : Nat) : Nat := (s.winStack window).toNat

def Windows.windowAt (position : Nat) : Nat := (s.winPos position).toNat

def Windows.slots : Finset Nat := Finset.Icc 1 s.threadCount

structure Windows.Inverse (s : Windows) : Prop where
  position_mem : ∀ i ∈ s.slots, s.position i ∈ s.slots
  windowAt_position : ∀ i ∈ s.slots, s.windowAt (s.position i) = i
  windowAt_mem : ∀ j ∈ s.slots, s.windowAt j ∈ s.slots
  position_windowAt : ∀ j ∈ s.slots, s.position (s.windowAt j) = j

/-- The windows apart from `w` are in the order they were in. -/
def KeepsOrder (s s' : Windows) (w : Nat) : Prop :=
  ∀ x ∈ s.slots, ∀ y ∈ s.slots, x ≠ w → y ≠ w → (s'.position x < s'.position y ↔ s.position x < s.position y)

/-! ## The loops -/

theorem foldl_update {g : BitVec 16 → BitVec 16} {l : List Nat} (hl : l.Nodup) (t : Nat → BitVec 16) (i : Nat) :
    l.foldl (fun t i => update t i (g (t i))) t i = if i ∈ l then g (t i) else t i := by
  induction l generalizing t with
  | nil => simp
  | cons a l ih =>
    obtain ⟨ha, hl⟩ := nodup_cons.mp hl
    rw [foldl_cons, ih hl]
    by_cases hi : i = a
    · rw [hi, if_neg ha, update_self, if_pos mem_cons_self]
    · rw [update_of_ne hi]
      simp [hi]

theorem eachThread_update {f : (Nat → BitVec 16) → Nat → Nat → BitVec 16} (g : BitVec 16 → BitVec 16)
    (hf : ∀ t i, f t i = update t i (g (t i))) (n : Nat) (t : Nat → BitVec 16) {i : Nat} (hi : i ∈ Finset.Icc 1 n) :
    eachThread n f t i = g (t i) := by
  obtain rfl : f = fun t i => update t i (g (t i)) := funext fun t => funext fun i => hf t i
  rw [Finset.mem_Icc] at hi
  rw [eachThread, foldl_update nodup_range' t i, if_pos (mem_range'_1.mpr (by omega))]

theorem eachThread_moveDown (n : Nat) (bx : BitVec 16) (t : Nat → BitVec 16) {i : Nat} (hi : i ∈ Finset.Icc 1 n) :
    (eachThread n (moveDown bx) t i).toNat = if (t i).toNat ≤ bx.toNat then (t i).toNat else (t i).toNat - 1 := by
  have hmove (t : Nat → BitVec 16) (i : Nat) : moveDown bx t i = update t i (if t i ≤ bx then t i else t i - 1) := by
    unfold moveDown
    split_ifs
    · exact (update_eq_self i t).symm
    · rfl
  rw [eachThread_update (fun x => if x ≤ bx then x else x - 1) hmove n t hi]
  simp only [BitVec.le_def]
  split_ifs with h
  · rfl
  · bv_omega

theorem eachThread_moveUp (n : Nat) (bx : BitVec 16) (t : Nat → BitVec 16) {i : Nat} (hi : i ∈ Finset.Icc 1 n) :
    (eachThread n (moveUp bx) t i).toNat = if bx.toNat ≤ (t i).toNat then (t i).toNat else (t i).toNat + 1 := by
  have hmove (t : Nat → BitVec 16) (i : Nat) : moveUp bx t i = update t i (if bx ≤ t i then t i else t i + 1) := by
    unfold moveUp
    split_ifs
    · exact (update_eq_self i t).symm
    · rfl
  rw [eachThread_update (fun x => if bx ≤ x then x else x + 1) hmove n t hi]
  simp only [BitVec.le_def]
  split_ifs with h
  · rfl
  · bv_omega

theorem foldl_setPos {winStack : Nat → BitVec 16} {l : List Nat}
    (hinj : ∀ i ∈ l, ∀ j ∈ l, (winStack i).toNat = (winStack j).toNat → i = j) (t : Nat → BitVec 16) {i : Nat}
    (hi : i ∈ l) : l.foldl (setPos winStack) t (winStack i).toNat = BitVec.ofNat 16 i := by
  induction l using List.reverseRecOn with
  | nil => cases hi
  | append_singleton l a ih =>
    rw [foldl_append, foldl_cons, foldl_nil, setPos]
    by_cases hia : i = a
    · rw [hia, update_self]
    · have hil : i ∈ l := by simpa [hia] using hi
      rw [update_of_ne fun h => hia (hinj i hi a (by simp) h)]
      exact ih (fun x hx y hy => hinj x (by simp [hx]) y (by simp [hy])) hil

/-! ## The tables behind a call -/

theorem inverse_of_injOn {s : Windows} {t : Nat → BitVec 16} (hn : s.threadCount ≤ 65535)
    (hmaps : Set.MapsTo s.position s.slots s.slots) (hinj : Set.InjOn s.position s.slots)
    (hpos : s.winPos = eachThread s.threadCount (setPos s.winStack) t) : s.Inverse := by
  have hmem {i : Nat} : i ∈ List.range' 1 s.threadCount ↔ i ∈ s.slots := by
    rw [Windows.slots, Finset.mem_Icc, mem_range'_1]
    omega
  have hinverse (i : Nat) (hi : i ∈ s.slots) : s.windowAt (s.position i) = i := by
    have hlt : i < 2 ^ 16 := by
      have := (Finset.mem_Icc.mp hi).2
      omega
    rw [Windows.windowAt, Windows.position, hpos, eachThread,
      foldl_setPos (fun x hx y hy h => hinj (hmem.mp hx) (hmem.mp hy) h) t (hmem.mpr hi), BitVec.toNat_ofNat,
      Nat.mod_eq_of_lt hlt]
  have hsurj := Finset.surjOn_of_injOn_of_card_le s.position hmaps hinj le_rfl
  refine ⟨hmaps, hinverse, fun j hj => ?_, fun j hj => ?_⟩
  all_goals
    obtain ⟨i, hi, rfl⟩ := hsurj hj
    rw [hinverse i hi]
  exact hi

theorem Windows.Inverse.position_eq_iff {s : Windows} (h : s.Inverse) {i j : Nat} (hi : i ∈ s.slots) (hj : j ∈ s.slots) :
    s.position i = j ↔ i = s.windowAt j := by
  constructor
  · rintro rfl
    exact (h.windowAt_position i hi).symm
  · rintro rfl
    exact h.position_windowAt j hj

theorem inverse_restack {s : Windows} {esi : Nat} {move : BitVec 16 → (Nat → BitVec 16) → Nat → Nat → BitVec 16}
    {position : BitVec 16} {p : Nat → Nat} (hn : s.threadCount ≤ 65535) (h : s.Inverse) (hesi : esi ∈ s.slots)
    (hmove : ∀ bx : BitVec 16, bx.toNat = esi → ∀ i ∈ s.slots,
      (eachThread s.threadCount (move bx) s.winStack i).toNat = p (s.position i))
    (hposition : position.toNat ∈ s.slots) (hfree : ∀ j ∈ s.slots, j ≠ esi → p j ∈ s.slots ∧ p j ≠ position.toNat)
    (hmono : ∀ i ∈ s.slots, ∀ j ∈ s.slots, i ≠ esi → j ≠ esi → (p i < p j ↔ i < j)) :
    (restack s esi move position).Inverse ∧ (restack s esi move position).position (s.windowAt esi) = position.toNat ∧
      KeepsOrder s (restack s esi move position) (s.windowAt esi) := by
  have hself : (restack s esi move position).position (s.windowAt esi) = position.toNat :=
    congrArg BitVec.toNat (update_self ..)
  have hother (i : Nat) (hi : i ∈ s.slots) (hne : i ≠ s.windowAt esi) :
      (restack s esi move position).position i = p (s.position i) := by
    rw [← hmove _ (h.position_windowAt esi hesi) i hi]
    exact congrArg BitVec.toNat (update_of_ne hne ..)
  have hgap {i : Nat} (hi : i ∈ s.slots) (hne : i ≠ s.windowAt esi) : s.position i ≠ esi :=
    fun heq => hne ((h.position_eq_iff hi hesi).mp heq)
  have horder : KeepsOrder s (restack s esi move position) (s.windowAt esi) := by
    intro x hx y hy hxw hyw
    rw [hother x hx hxw, hother y hy hyw]
    exact hmono _ (h.position_mem x hx) _ (h.position_mem y hy) (hgap hx hxw) (hgap hy hyw)
  refine ⟨inverse_of_injOn hn (fun i hi => ?_) (fun i hi j hj heq => ?_) rfl, hself, horder⟩
  · by_cases hiw : i = s.windowAt esi
    · rw [hiw, hself]
      exact hposition
    · rw [hother i hi hiw]
      exact (hfree _ (h.position_mem i hi) (hgap hi hiw)).1
  by_cases hiw : i = s.windowAt esi
  · by_cases hjw : j = s.windowAt esi
    · rw [hiw, hjw]
    · rw [hiw, hself, hother j hj hjw] at heq
      exact absurd heq.symm (hfree _ (h.position_mem j hj) (hgap hj hjw)).2
  by_cases hjw : j = s.windowAt esi
  · rw [hjw, hself, hother i hi hiw] at heq
    exact absurd heq (hfree _ (h.position_mem i hi) (hgap hi hiw)).2
  -- Neither window is in front of the other one.
  have hij := horder i hi j hj hiw hjw
  have hji := horder j hj i hi hjw hiw
  have hsame : s.position i = s.position j := by omega
  rw [← h.windowAt_position i hi, hsame, h.windowAt_position j hj]

/-! ## The two functions -/

theorem redrawTop_eq : ∃ flRedraw, redrawTop s = { s with flRedraw } := by
  unfold redrawTop
  dsimp only
  split_ifs
  · exact ⟨_, rfl⟩
  · exact ⟨s.flRedraw, rfl⟩

section Calls

variable {s : Windows} {esi : Nat} (hn : s.threadCount ≤ 65535) (h : s.Inverse) (hesi : esi ∈ s.slots)

include hn h hesi

theorem windowActivate_spec :
    (windowActivate s esi).Inverse ∧ (windowActivate s esi).position (s.windowAt esi) = s.threadCount ∧
      KeepsOrder s (windowActivate s esi) (s.windowAt esi) := by
  obtain ⟨flRedraw, hredraw⟩ := redrawTop_eq s
  have hinv : { s with flRedraw }.Inverse := ⟨h.1, h.2, h.3, h.4⟩
  have htop : (BitVec.ofNat 16 s.threadCount).toNat = s.threadCount := by
    rw [BitVec.toNat_ofNat]
    omega
  have hle := Finset.mem_Icc.mp hesi
  rw [windowActivate, hredraw]
  have hspec := @inverse_restack { s with flRedraw } esi moveDown (BitVec.ofNat 16 s.threadCount)
    (fun x => if x ≤ esi then x else x - 1) hn hinv hesi ?_ ?_ ?_ ?_
  · rwa [htop] at hspec
  · rintro bx rfl i hi
    exact eachThread_moveDown _ bx _ hi
  · rw [htop]
    exact Finset.mem_Icc.mpr ⟨by omega, le_rfl⟩
  · intro j hj hne
    have hj : 1 ≤ j ∧ j ≤ s.threadCount := Finset.mem_Icc.mp hj
    change _ ∈ s.slots ∧ _
    rw [htop, Windows.slots, Finset.mem_Icc]
    split_ifs <;> omega
  · intro i _ j _ hi hj
    split_ifs <;> omega

theorem windowDeactivate_spec :
    (windowDeactivate s esi).Inverse ∧ (windowDeactivate s esi).position (s.windowAt esi) = 1 ∧
      KeepsOrder s (windowDeactivate s esi) (s.windowAt esi) := by
  have hle := Finset.mem_Icc.mp hesi
  refine @inverse_restack s esi moveUp 1 (fun x => if esi ≤ x then x else x + 1) hn h hesi ?_ ?_ ?_ ?_
  · rintro bx rfl i hi
    exact eachThread_moveUp _ bx _ hi
  · exact Finset.mem_Icc.mpr ⟨le_rfl, by change 1 ≤ _; omega⟩
  · intro j hj hne
    have := Finset.mem_Icc.mp hj
    change _ ∧ _ ≠ 1
    rw [Windows.slots, Finset.mem_Icc]
    split_ifs <;> omega
  · intro i _ j _ hi hj
    split_ifs <;> omega

end Calls

/-- **A window that is activated comes to the top and one that is deactivated to the bottom.** -/
theorem window_order (s : Windows) (hn : s.threadCount ≤ 65535) (h : s.Inverse) (esi : Nat) (hesi : esi ∈ s.slots) :
    ((windowActivate s esi).Inverse ∧ (windowActivate s esi).position (s.windowAt esi) = s.threadCount ∧
        KeepsOrder s (windowActivate s esi) (s.windowAt esi)) ∧
      (windowDeactivate s esi).Inverse ∧ (windowDeactivate s esi).position (s.windowAt esi) = 1 ∧
        KeepsOrder s (windowDeactivate s esi) (s.windowAt esi) :=
  ⟨windowActivate_spec hn h hesi, windowDeactivate_spec hn h hesi⟩

def threeWindows : Windows where
  threadCount := 3
  winStack i := BitVec.ofNat 16 i
  winPos j := BitVec.ofNat 16 j
  flWstyle _ := 3
  flRedraw _ := 0
  keyCount := 0
  btnCount := 0
  mouseScrollH := 0
  mouseScrollV := 0

theorem window_order_three : (windowActivate threeWindows 1).position 1 = 3 ∧
    (windowDeactivate threeWindows 3).position 3 = 1 := by
  have hinv : threeWindows.Inverse := ⟨by decide, by decide, by decide, by decide⟩
  exact ⟨(window_order threeWindows (by decide) hinv 1 (by decide)).1.2.1,
    (window_order threeWindows (by decide) hinv 3 (by decide)).2.2.1⟩

end Kolibri.WindowStack
