import Mathlib

/-! # Loops with a check in every round

If a check before each round decides exactly whether the round stays `clean`, then the loop ends clean if and
only if the loop with the checks does.
-/

namespace Kolibri.CheckedLoop

variable {σ ρ : Type*} {step : σ → σ ⊕ ρ} {s : σ} {r : ρ} {f f' : Nat}

/-- `none` means that the fuel does not suffice. -/
def run (step : σ → σ ⊕ ρ) : Nat → σ → Option ρ
  | 0, _ => none
  | f + 1, s =>
    match step s with
    | .inl s' => run step f s'
    | .inr r => some r

theorem run_mono (h : run step f s = some r) (hle : f ≤ f') : run step f' s = some r := by
  induction f generalizing s f' with
  | zero => cases h
  | succ f ih =>
    obtain ⟨f', rfl⟩ := Nat.exists_eq_succ_of_ne_zero (by omega : f' ≠ 0)
    unfold run at h ⊢
    cases hstep : step s with
    | inl s' =>
      rw [hstep] at h
      exact ih h (by omega)
    | inr r' =>
      rw [hstep] at h
      exact h

/-- A round of the one loop is a round of the other one, which may need another one to end. -/
theorem run_simulates {σ' ρ' : Type*} {step' : σ' → σ' ⊕ ρ'} (inv : σ → Prop) (φ : σ → σ') (out : ρ → ρ')
    (hnext : ∀ s s1, inv s → step s = .inl s1 → inv s1 ∧ step' (φ s) = .inl (φ s1))
    (hend : ∀ s r, inv s → step s = .inr r → run step' 2 (φ s) = some (out r)) (hinv : inv s)
    (h : run step f s = some r) : run step' (f + 1) (φ s) = some (out r) := by
  induction f generalizing s with
  | zero => cases h
  | succ f ih =>
    rw [run] at h
    cases hstep : step s with
    | inl s1 =>
      rw [hstep] at h
      obtain ⟨hinv1, hround⟩ := hnext s s1 hinv hstep
      rw [run, hround]
      exact ih hinv1 h
    | inr r1 =>
      rw [hstep] at h
      cases h
      exact run_mono (hend s r hinv hstep) (by omega)

section Checked

variable (ok : σ → Prop) [DecidablePred ok]

def runChecked (step : σ → σ ⊕ ρ) : Nat → σ → Option ρ
  | 0, _ => none
  | f + 1, s =>
    if ok s then
      match step s with
      | .inl s' => runChecked step f s'
      | .inr r => some r
    else none

variable {ok}

theorem run_of_runChecked (h : runChecked ok step f s = some r) : run step f s = some r := by
  induction f generalizing s with
  | zero => cases h
  | succ f ih =>
    unfold runChecked at h
    split at h
    · unfold run
      cases hstep : step s with
      | inl s' =>
        rw [hstep] at h
        exact ih h
      | inr r' =>
        rw [hstep] at h
        exact h
    · cases h

/-- Every round is clean exactly if its check holds, and what is not clean stays so. -/
structure Guards (ok : σ → Prop) (step : σ → σ ⊕ ρ) (inv clean : σ → Prop) (cleanEnd : ρ → Prop) (μ : σ → Nat) :
    Prop where
  next : ∀ s s', inv s → clean s → ok s → step s = .inl s' → inv s' ∧ clean s' ∧ μ s' < μ s
  done : ∀ s r, inv s → clean s → ok s → step s = .inr r → cleanEnd r
  fails_next : ∀ s s', inv s → ¬ ok s → step s = .inl s' → ¬ clean s'
  fails_done : ∀ s r, inv s → ¬ ok s → step s = .inr r → ¬ cleanEnd r
  stays_next : ∀ s s', ¬ clean s → step s = .inl s' → ¬ clean s'
  stays_done : ∀ s r, ¬ clean s → step s = .inr r → ¬ cleanEnd r

variable {inv clean : σ → Prop} {cleanEnd : ρ → Prop} {μ : σ → Nat}

variable (h : Guards ok step inv clean cleanEnd μ)
include h

theorem Guards.not_clean_end (hs : ¬ clean s) (hr : run step f s = some r) : ¬ cleanEnd r := by
  induction f generalizing s with
  | zero => cases hr
  | succ f ih =>
    unfold run at hr
    cases hstep : step s with
    | inl s' =>
      rw [hstep] at hr
      exact ih (h.stays_next s s' hs hstep) hr
    | inr r' =>
      rw [hstep] at hr
      cases hr
      exact h.stays_done s r hs hstep

theorem Guards.clean_end (hinv : inv s) (hs : clean s)
    (hr : runChecked ok step f s = some r) : cleanEnd r := by
  induction f generalizing s with
  | zero => cases hr
  | succ f ih =>
    unfold runChecked at hr
    split at hr
    · next hok =>
      cases hstep : step s with
      | inl s' =>
        rw [hstep] at hr
        obtain ⟨hinv', hs', -⟩ := h.next s s' hinv hs hok hstep
        exact ih hinv' hs' hr
      | inr r' =>
        rw [hstep] at hr
        cases hr
        exact h.done s r hinv hs hok hstep
    · cases hr

theorem Guards.runChecked_of_clean (hinv : inv s) (hs : clean s)
    (hr : run step f s = some r) (hend : cleanEnd r) (hμ : μ s < f') : runChecked ok step f' s = some r := by
  induction f generalizing s f' with
  | zero => cases hr
  | succ f ih =>
    obtain ⟨f', rfl⟩ := Nat.exists_eq_succ_of_ne_zero (by omega : f' ≠ 0)
    unfold run at hr
    unfold runChecked
    by_cases hok : ok s
    · rw [if_pos hok]
      cases hstep : step s with
      | inl s' =>
        rw [hstep] at hr
        obtain ⟨hinv', hs', hlt⟩ := h.next s s' hinv hs hok hstep
        exact ih hinv' hs' hr (by omega)
      | inr r' =>
        rw [hstep] at hr
        exact hr
    exfalso
    cases hstep : step s with
    | inl s' =>
      rw [hstep] at hr
      exact h.not_clean_end (h.fails_next s s' hinv hok hstep) hr hend
    | inr r' =>
      rw [hstep] at hr
      cases hr
      exact h.fails_done s r hinv hok hstep hend

/-- The loop ends clean with `r` exactly if the checked loop gives `r`. -/
theorem Guards.clean_iff (hinv : inv s) (hs : clean s) :
    (∃ f, run step f s = some r) ∧ cleanEnd r ↔ runChecked ok step (μ s + 1) s = some r := by
  constructor
  · rintro ⟨⟨f, hr⟩, hend⟩
    exact h.runChecked_of_clean hinv hs hr hend (Nat.lt_succ_self _)
  · intro hr
    exact ⟨⟨_, run_of_runChecked hr⟩, h.clean_end hinv hs hr⟩

end Checked

end Kolibri.CheckedLoop
