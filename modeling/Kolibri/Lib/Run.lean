import Mathlib

/-! # Runs of a step function

A step takes a state and an input, and gives the next state and an output.
-/

namespace Kolibri.Run

open List

variable {σ ι ο : Type*}

structure Call (σ ι ο : Type*) where
  before : σ
  input : ι
  output : ο
  after : σ

def trace (step : σ → ι → σ × ο) : σ → List ι → List (Call σ ι ο)
  | _, [] => []
  | s, i :: is => ⟨s, i, (step s i).2, (step s i).1⟩ :: trace step (step s i).1 is

variable (step : σ → ι → σ × ο)

def final (s : σ) (is : List ι) : σ :=
  is.foldl (fun s i => (step s i).1) s

def Allowed (step : σ → ι → σ × ο) (Ok : σ → ι → Prop) : σ → List ι → Prop
  | _, [] => True
  | s, i :: is => Ok s i ∧ Allowed step Ok (step s i).1 is

instance decidableAllowed (step : σ → ι → σ × ο) (Ok : σ → ι → Prop) [∀ s i, Decidable (Ok s i)] :
    (s : σ) → (is : List ι) → Decidable (Allowed step Ok s is)
  | _, [] => inferInstanceAs (Decidable True)
  | s, i :: is =>
    have := decidableAllowed step Ok (step s i).1 is
    inferInstanceAs (Decidable (Ok s i ∧ Allowed step Ok (step s i).1 is))

@[simp] theorem final_nil (s : σ) : final step s [] = s := rfl

@[simp] theorem final_cons (s : σ) (i : ι) (is : List ι) : final step s (i :: is) = final step (step s i).1 is := rfl

theorem final_append (s : σ) (is js : List ι) : final step s (is ++ js) = final step (final step s is) js :=
  foldl_append ..

variable {Adm : ι → Prop} {is : List ι} {s : σ}

section Invariant

variable {step : σ → ι → σ × ο} {Ok : σ → ι → Prop} {Inv : σ → Prop}

theorem allowed_of_forall (s : σ) (h : ∀ i ∈ is, Adm i) : Allowed step (fun _ i => Adm i) s is := by
  induction is generalizing s with
  | nil => trivial
  | cons i is ih =>
    exact ⟨h i mem_cons_self, ih _ fun j hj => h j (mem_cons_of_mem _ hj)⟩

theorem allowed_append {js : List ι} :
    Allowed step Ok s (is ++ js) ↔ Allowed step Ok s is ∧ Allowed step Ok (final step s is) js := by
  induction is generalizing s with
  | nil => simp [Allowed]
  | cons i is ih => simp [Allowed, ih, and_assoc]

theorem allowed_and {Ok' : σ → ι → Prop} (h : Allowed step Ok s is) (h' : Allowed step Ok' s is) :
    Allowed step (fun s i => Ok s i ∧ Ok' s i) s is := by
  induction is generalizing s with
  | nil => trivial
  | cons i is ih => exact ⟨⟨h.1, h'.1⟩, ih h.2 h'.2⟩

theorem final_inv (hstep : ∀ s i, Inv s → Ok s i → Inv (step s i).1) {s : σ} {is : List ι}
    (hs : Inv s) (hok : Allowed step Ok s is) : Inv (final step s is) := by
  induction is generalizing s with
  | nil => exact hs
  | cons i is ih => exact ih (hstep s i hs hok.1) hok.2

theorem trace_inv (hstep : ∀ s i, Inv s → Ok s i → Inv (step s i).1) (hs : Inv s) (hok : Allowed step Ok s is) :
    ∀ c ∈ trace step s is, Inv c.before ∧ Ok c.before c.input ∧ step c.before c.input = (c.after, c.output) := by
  induction is generalizing s with
  | nil => intro c hc; cases hc
  | cons i is ih =>
    intro c hc
    rcases mem_cons.mp hc with rfl | hc
    · exact ⟨hs, hok.1, rfl⟩
    · exact ih (hstep s i hs hok.1) hok.2 c hc

/-- A property holds in every state of a run exactly if every call is a good one. -/
theorem forall_prefix_iff {Good : σ → ι → Prop} {P : σ → Prop}
    (hgood : ∀ s i, Inv s → Ok s i → Good s i → Inv (step s i).1) (hP : ∀ s, Inv s → P s)
    (hbad : ∀ s i, Inv s → Ok s i → ¬ Good s i → ¬ P (step s i).1) {s : σ} {is : List ι} (hs : Inv s)
    (hok : Allowed step Ok s is) : (∀ pre, pre <+: is → P (final step s pre)) ↔ Allowed step Good s is := by
  constructor
  · intro hall
    induction is generalizing s with
    | nil => trivial
    | cons i is ih =>
      have hi : Good s i := by
        by_contra hnot
        exact hbad s i hs hok.1 hnot (hall [i] (by simp))
      refine ⟨hi, ih (hgood s i hs hok.1 hi) hok.2 fun pre hpre => ?_⟩
      exact hall (i :: pre) (cons_prefix_cons.mpr ⟨rfl, hpre⟩)
  · rintro hall pre ⟨post, rfl⟩
    have h := allowed_and (allowed_append.mp hok).1 (allowed_append.mp hall).1
    exact hP _ (final_inv (fun s i hinv h => hgood s i hinv h.1 h.2) hs h)

end Invariant

/-! ## Two step functions -/

theorem simulates {τ : Type*} {step : σ → ι → σ × ο} {step' : τ → ι → τ × ο} {R : σ → τ → Prop}
    (hstep : ∀ s t i, R s t → Adm i → R (step s i).1 (step' t i).1 ∧ (step s i).2 = (step' t i).2) {t : τ}
    (hR : R s t) (hadm : ∀ i ∈ is, Adm i) :
    R (final step s is) (final step' t is) ∧
      (trace step s is).map Call.output = (trace step' t is).map Call.output := by
  induction is generalizing s t with
  | nil => exact ⟨hR, rfl⟩
  | cons i is ih =>
    obtain ⟨hnext, hout⟩ := hstep s t i hR (hadm i mem_cons_self)
    obtain ⟨hfinal, houts⟩ := ih hnext fun j hj => hadm j (mem_cons_of_mem _ hj)
    refine ⟨hfinal, ?_⟩
    rw [trace, trace, map_cons, map_cons, houts, hout]

/-! ## Between two calls -/

theorem trace_head_before (s : σ) (is : List ι)
    (h : 0 < (trace step s is).length) : (trace step s is)[0].before = s := by
  cases is with
  | nil => simp [trace] at h
  | cons i is => rfl

theorem trace_succ_before (s : σ) (is : List ι) (k : Nat)
    (h : k + 1 < (trace step s is).length) :
    (trace step s is)[k + 1].before = (trace step s is)[k].after := by
  induction is generalizing s k with
  | nil => simp [trace] at h
  | cons i is ih =>
    simp only [trace, length_cons, Nat.add_lt_add_iff_right] at h
    cases k with
    | zero => exact trace_head_before step _ is h
    | succ k => exact ih _ k h

theorem trace_stays (s : σ) (is : List ι) (P : σ → Prop) (i : Nat) :
    ∀ j, i < j → ∀ hj : j < (trace step s is).length,
      (∀ hi : i < (trace step s is).length, P (trace step s is)[i].after) →
      (∀ k (hk : k < (trace step s is).length), i < k → k < j →
        P (trace step s is)[k].before → P (trace step s is)[k].after) →
      P (trace step s is)[j].before := by
  intro j
  induction j with
  | zero => intro hij; omega
  | succ j ih =>
    intro hij hj hi hkeep
    rw [trace_succ_before step s is j hj]
    rcases Nat.lt_or_ge i j with hlt | hge
    · refine hkeep j (by omega) hlt (by omega) ?_
      exact ih hlt (by omega) hi fun k hk h1 h2 => hkeep k hk h1 (by omega)
    · obtain rfl : i = j := by omega
      exact hi (by omega)

end Kolibri.Run
