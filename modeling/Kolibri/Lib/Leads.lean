import Mathlib

/-! # Chains along a link function -/

namespace Kolibri

open List

variable {ν : Type*} {next next' : ν → ν} {goes goes' : ν → Prop} {a e e' x : ν} {l l' : List ν}

inductive Leads (next : ν → ν) (goes : ν → Prop) : ν → List ν → ν → Prop
  | stop {a : ν} : ¬ goes a → Leads next goes a [] a
  | step {a e : ν} {l : List ν} : goes a → Leads next goes (next a) l e → Leads next goes a (a :: l) e

namespace Leads

variable (h : Leads next goes a l e)
include h

theorem unique (h' : Leads next goes a l' e') : l = l' ∧ e = e' := by
  induction h generalizing l' with
  | stop hstop =>
    cases h' with
    | stop => exact ⟨rfl, rfl⟩
    | step hgo => exact absurd hgo hstop
  | step hgo _ ih =>
    cases h' with
    | stop hstop => exact absurd hgo hstop
    | step _ hrest =>
      obtain ⟨rfl, rfl⟩ := ih hrest
      exact ⟨rfl, rfl⟩

theorem goes_of_mem (hx : x ∈ l) : goes x := by
  induction h with
  | stop => cases hx
  | step hgo _ ih =>
    rcases mem_cons.mp hx with rfl | hx
    · exact hgo
    · exact ih hx

theorem head_mem (ha : goes a) : a ∈ l := by
  cases h with
  | stop hstop => exact absurd ha hstop
  | step => exact mem_cons_self

theorem next_mem (hx : x ∈ l) : next x ∈ l ∨ next x = e := by
  induction h with
  | stop => cases hx
  | @step a e l _ hrest ih =>
    rcases mem_cons.mp hx with rfl | hx
    · cases hrest with
      | stop => exact .inr rfl
      | step => exact .inl (mem_cons_of_mem _ mem_cons_self)
    · exact (ih hx).imp_left (mem_cons_of_mem a)

theorem suffix_of_mem (hx : x ∈ l) : ∃ l', Leads next goes x l' e ∧ l' <:+ l := by
  induction h with
  | stop => cases hx
  | @step a e l hgo hrest ih =>
    rcases mem_cons.mp hx with rfl | hx
    · exact ⟨x :: l, .step hgo hrest, suffix_rfl⟩
    · obtain ⟨l', hl', hsuf⟩ := ih hx
      exact ⟨l', hl', hsuf.trans (suffix_cons a l)⟩

theorem nodup : l.Nodup := by
  induction h with
  | stop => exact nodup_nil
  | @step a e l hgo hrest ih =>
    refine nodup_cons.mpr ⟨fun hmem => ?_, ih⟩
    -- a second visit would lead through a shorter rest of the same chain
    obtain ⟨l', hl', hsuf⟩ := hrest.suffix_of_mem hmem
    obtain ⟨rfl, -⟩ := hl'.unique (.step hgo hrest)
    have := hsuf.length_le
    rw [length_cons] at this
    omega

theorem congr (hnext : ∀ x ∈ l, next' x = next x)
    (hgoes : ∀ x, goes' x ↔ goes x) : Leads next' goes' a l e := by
  induction h with
  | stop hstop => exact .stop fun h => hstop ((hgoes _).mp h)
  | @step a e l hgo _ ih =>
    refine .step ((hgoes a).mpr hgo) ?_
    rw [hnext a mem_cons_self]
    exact ih fun x hx => hnext x (mem_cons_of_mem a hx)

end Leads

end Kolibri
