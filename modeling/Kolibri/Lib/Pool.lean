import Kolibri.Lib.Run

/-! # A pool of resources

Calls take sets from the free items and give items back.
-/

namespace Kolibri.Pool

open Run

variable {α : Type*} [DecidableEq α]

inductive Event (α : Type*)
  | take (T : Finset α)
  | give (x : α)

def Event.taken : Event α → Finset α
  | .take T => T
  | .give _ => ∅

def Moves (F : Finset α) (e : Event α) (F' : Finset α) : Prop :=
  match e with
  | .take T => T ⊆ F ∧ F' = F \ T
  | .give x => F' = insert x F

theorem moves_taken_free {F F' : Finset α} {e : Event α} (h : Moves F e F') {x : α}
    (hx : x ∈ e.taken) : x ∈ F ∧ x ∉ F' := by
  cases e with
  | take T =>
    obtain ⟨hsub, rfl⟩ := h
    exact ⟨hsub hx, fun hF => (Finset.mem_sdiff.mp hF).2 hx⟩
  | give y => simp [Event.taken] at hx

theorem moves_not_free {F F' : Finset α} {e : Event α} (h : Moves F e F') {x : α}
    (hx : x ∉ F) (hne : e ≠ .give x) : x ∉ F' := by
  cases e with
  | take T =>
    obtain ⟨-, rfl⟩ := h
    exact fun hF => hx (Finset.mem_sdiff.mp hF).1
  | give y =>
    have hxy : x ≠ y := fun hxy => hne (by rw [hxy])
    rw [h, Finset.mem_insert]
    exact fun hF => hF.elim hxy hx

/-- **No double taking**, for any run whose calls move the pool `free`. -/
theorem no_double_take {σ ι ο : Type*} (step : σ → ι → σ × ο) (s : σ) (is : List ι)
    (free : σ → Finset α) (ev : Call σ ι ο → Event α)
    (hsim : ∀ c ∈ trace step s is, Moves (free c.before) (ev c) (free c.after))
    (i j : Nat) (hij : i < j) (hj : j < (trace step s is).length) (x : α)
    (hi : x ∈ (ev (trace step s is)[i]).taken) (hx : x ∈ (ev (trace step s is)[j]).taken) :
    ∃ k, ∃ hk : k < (trace step s is).length, i < k ∧ k < j ∧ ev (trace step s is)[k] = .give x := by
  by_contra hno
  push Not at hno
  have hstays : x ∉ free (trace step s is)[j].before := by
    apply trace_stays step s is (fun t => x ∉ free t) i j hij hj
    · intro hlt
      exact (moves_taken_free (hsim _ (List.getElem_mem _)) hi).2
    · intro k hk hik hkj hfree
      exact moves_not_free (hsim _ (List.getElem_mem hk)) hfree (hno k hk hik hkj)
  exact hstays (moves_taken_free (hsim _ (List.getElem_mem _)) hx).1

/-! ## Counting -/

theorem card_give (F : Finset α) (x : α) : (insert x F).card = F.card + if x ∈ F then 0 else 1 := by
  split_ifs with h
  · rw [Finset.insert_eq_of_mem h, Nat.add_zero]
  · exact Finset.card_insert_of_notMem h

theorem card_take {F T : Finset α} (h : T ⊆ F) : (F \ T).card + T.card = F.card := by
  rw [Finset.card_sdiff_of_subset h]
  have := Finset.card_le_card h
  omega

end Kolibri.Pool
