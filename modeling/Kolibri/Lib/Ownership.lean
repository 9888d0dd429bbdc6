import Mathlib

/-! # Resources that several places map

Places fall into groups, and only places of one group may map the same resource.
-/

namespace Kolibri.Ownership

variable {κ κ' ρ γ γ' : Type*} {free free' : ρ → Prop} {maps : κ → ρ → Prop} {group : κ → γ}

structure Owned (free : ρ → Prop) (maps : κ → ρ → Prop) (group : κ → γ) : Prop where
  taken : ∀ k q, maps k q → ¬ free q
  together : ∀ k k' q, maps k q → maps k' q → group k = group k'

theorem Owned.survive {maps' : κ' → ρ → Prop} {group' : κ' → γ'} (h : Owned free maps group) (src : κ' → κ)
    (rename : γ → γ') (hmaps : ∀ k q, maps' k q → maps (src k) q ∧ group' k = rename (group (src k)))
    (hfree : ∀ q, free' q → free q ∨ ∀ k, ¬ maps' k q) : Owned free' maps' group' := by
  refine ⟨fun k q hk hq => ?_, fun k k' q hk hk' => ?_⟩
  · rcases hfree q hq with hq | hnone
    · exact h.taken _ q (hmaps k q hk).1 hq
    · exact hnone k hk
  · rw [(hmaps k q hk).2, (hmaps k' q hk').2, h.together _ _ q (hmaps k q hk).1 (hmaps k' q hk').1]

theorem Owned.add {maps' : κ → ρ → Prop} {group' : κ → γ} (h : Owned free maps group)
    (hmaps : ∀ k q, maps' k q → (maps k q ∧ group' k = group k) ∨ free q ∧ ¬ free' q)
    (hnew : ∀ k k' q, maps' k q → maps' k' q → free q → group' k = group' k')
    (hfree : ∀ q, free' q → free q) : Owned free' maps' group' := by
  refine ⟨fun k q hk hq => ?_, fun k k' q hk hk' => ?_⟩
  · rcases hmaps k q hk with ⟨hold, -⟩ | ⟨-, htaken⟩
    · exact h.taken k q hold (hfree q hq)
    · exact htaken hq
  rcases hmaps k q hk with ⟨hold, hg⟩ | ⟨hq, -⟩
  · rcases hmaps k' q hk' with ⟨hold', hg'⟩ | ⟨hq, -⟩
    · rw [hg, hg', h.together k k' q hold hold']
    · exact absurd hq (h.taken k q hold)
  · exact hnew k k' q hk hk' hq

end Kolibri.Ownership
