import Mathlib

/-! # Threads on one processor

`none` stands for every thread that the component does not know.
-/

namespace Kolibri.Threads

open Function

variable {τ α : Type*}

structure Cpu (τ : Type*) where
  current : Option τ
  running : τ → Bool

def Cpu.CanRun (c : Cpu τ) : Option τ → Prop
  | none => True
  | some t => c.running t = true

instance (c : Cpu τ) : (t : Option τ) → Decidable (c.CanRun t)
  | none => inferInstanceAs (Decidable True)
  | some _ => inferInstanceAs (Decidable (_ = true))

def Cpu.switch (c : Cpu τ) (next : Option τ) : Cpu τ := { c with current := next }

@[simp] theorem switch_running (c : Cpu τ) (next : Option τ) : (c.switch next).running = c.running := rfl

@[simp] theorem switch_current (c : Cpu τ) (next : Option τ) : (c.switch next).current = next := rfl

section Changes

variable [DecidableEq τ] (c : Cpu τ)

def Cpu.setRunning (t : τ) (b : Bool) : Cpu τ := { c with running := update c.running t b }

def Cpu.wake (l : List τ) : Cpu τ := { c with running := fun t => c.running t || decide (t ∈ l) }

@[simp] theorem setRunning_current (t : τ) (b : Bool) : (c.setRunning t b).current = c.current := rfl

@[simp] theorem setRunning_self (t : τ) (b : Bool) : (c.setRunning t b).running t = b := update_self ..

@[simp] theorem setRunning_of_ne {t u : τ} (b : Bool) (h : u ≠ t) : (c.setRunning t b).running u = c.running u :=
  update_of_ne h ..

theorem running_of_suspend {c : Cpu τ} {t u : τ} (h : (c.setRunning t false).running u = true) :
    c.running u = true ∧ u ≠ t := by
  by_cases hu : u = t
  · simp [hu] at h
  · exact ⟨by simpa [hu] using h, hu⟩

@[simp] theorem wake_current (l : List τ) : (c.wake l).current = c.current := rfl

@[simp] theorem wake_running (l : List τ) (t : τ) : (c.wake l).running t = (c.running t || decide (t ∈ l)) := rfl

end Changes

/-! ## How many threads are at a place -/

section Tally

variable [Fintype τ] {p : α → Prop} [DecidablePred p] {f : τ → α}

def tally (p : α → Prop) [DecidablePred p] (f : τ → α) : ℕ := (Finset.univ.filter fun t => p (f t)).card

theorem tally_eq_zero : tally p f = 0 ↔ ∀ t, ¬ p (f t) := by
  rw [tally, Finset.card_eq_zero, Finset.filter_eq_empty_iff]
  simp

variable [DecidableEq τ]

theorem tally_update (t : τ) (x : α) :
    tally p (update f t x) + (if p (f t) then 1 else 0) = tally p f + if p x then 1 else 0 := by
  have hrest : ∀ g : τ → α, tally p g = (((Finset.univ.erase t).filter fun u => p (g u)).card) + if p (g t) then 1 else 0 := by
    intro g
    rw [tally, ← Finset.insert_erase (Finset.mem_univ t), Finset.filter_insert, Finset.insert_erase (Finset.mem_univ t)]
    split_ifs with ht
    · exact Finset.card_insert_of_notMem (by simp)
    · rfl
  have hsame : (Finset.univ.erase t).filter (fun u => p (update f t x u)) = (Finset.univ.erase t).filter fun u => p (f u) := by
    apply Finset.filter_congr
    intro u hu
    rw [update_of_ne (Finset.ne_of_mem_erase hu)]
  rw [hrest (update f t x), hrest f, hsame, update_self]
  omega

theorem tally_list {l : List τ} {x : α} (hnodup : l.Nodup) (hx : p x) (hl : ∀ t ∈ l, ¬ p (f t)) :
    tally p (fun t => if t ∈ l then x else f t) = tally p f + l.length := by
  induction l with
  | nil => simp
  | cons t l ih =>
    obtain ⟨hfresh, hnodup⟩ := List.nodup_cons.mp hnodup
    have hstep : (fun u => if u ∈ t :: l then x else f u) = update (fun u => if u ∈ l then x else f u) t x := by
      funext u
      by_cases hu : u = t
      · simp [hu]
      · simp [hu, update_of_ne]
    have hone := tally_update (p := p) (f := fun u => if u ∈ l then x else f u) t x
    have ht := hl t List.mem_cons_self
    rw [hstep, List.length_cons]
    rw [ih hnodup fun u hu => hl u (List.mem_cons_of_mem _ hu)] at hone
    simp only [hfresh, if_false, ht, hx, if_true] at hone
    omega

end Tally

end Kolibri.Threads
