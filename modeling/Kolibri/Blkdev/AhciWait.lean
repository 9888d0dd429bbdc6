import Mathlib

/-! # Waiting for a port (`ahci_port_wait.rs`)

The port is polled up to a deadline. It wraps at `2 ^ 32`, and ticks are compared with it as plain numbers.
-/

namespace Kolibri.Ahci

open BitVec

def ataDevBusy : BitVec 32 := 0x80
def ataDevDrq : BitVec 32 := 0x08
def ataDevBusyDrqMask : BitVec 32 := ataDevBusy ||| ataDevDrq

structure Poll where
  tfd : BitVec 32
  ticks : BitVec 32
  deriving DecidableEq

def Poll.Clear (p : Poll) : Prop := p.tfd &&& ataDevBusyDrqMask = 0
  deriving Decidable

/-- What is returned, and the poll at which it is. `none`: the port still waits. -/
def pollLoop (deadline : BitVec 32) : List Poll → Option (BitVec 32 × Poll)
  | [] => none
  | p :: polls =>
    if p.Clear then some (0, p)
    else if deadline ≤ p.ticks then some (1, p)
    else pollLoop deadline polls

/-- The first tick that is read is `start`. -/
def ahciPortWait (start timeout : BitVec 32) (polls : List Poll) : Option (BitVec 32 × Poll) :=
  pollLoop (start + timeout) polls

/-- From `now` on the clock runs forward, modulo `2 ^ 32`, and less than `left` ticks in total. -/
def Advances (left : Nat) (now : BitVec 32) : List Poll → Prop
  | [] => True
  | p :: polls => (p.ticks - now).toNat < left ∧ Advances (left - (p.ticks - now).toNat) p.ticks polls

def Honours (start timeout : BitVec 32) (polls : List Poll) : Prop :=
  ∀ r p, ahciPortWait start timeout polls = some (r, p) →
    p ∈ polls ∧ (r = 1 → timeout ≤ p.ticks - start) ∧ (r = 0 → p.Clear)

theorem pollLoop_some {deadline r : BitVec 32} {p : Poll} {polls : List Poll}
    (h : pollLoop deadline polls = some (r, p)) :
    p ∈ polls ∧ (r = 0 ∧ p.Clear ∨ r = 1 ∧ deadline ≤ p.ticks) := by
  induction polls with
  | nil => cases h
  | cons q polls ih =>
    rw [pollLoop] at h
    split_ifs at h with hclear hlate
    · cases h
      exact ⟨List.mem_cons_self, .inl ⟨rfl, hclear⟩⟩
    · cases h
      exact ⟨List.mem_cons_self, .inr ⟨rfl, hlate⟩⟩
    · obtain ⟨hmem, hcase⟩ := ih h
      exact ⟨List.mem_cons_of_mem _ hmem, hcase⟩

theorem timeout_le_of_deadline_le {start timeout ticks : BitVec 32} (h : start.toNat + timeout.toNat < 2 ^ 32)
    (hlate : start + timeout ≤ ticks) : timeout ≤ ticks - start := by
  rw [le_def, toNat_add_of_lt h] at hlate
  rw [le_def, toNat_sub_of_le (by rw [le_def]; omega)]
  omega

theorem deadline_le_of_wrap {start timeout : BitVec 32} (h : 2 ^ 32 ≤ start.toNat + timeout.toNat) :
    start + timeout ≤ start := by
  rw [le_def, toNat_add]
  omega

/-- The wait honours its timeout just if the deadline does not wrap. -/
theorem ahci_port_wait_honours_iff (start timeout : BitVec 32) :
    (∀ polls, Advances (2 ^ 31) start polls → Honours start timeout polls) ↔
      start.toNat + timeout.toNat < 2 ^ 32 := by
  constructor
  · intro hall
    by_contra hwrap
    -- The port is busy and the clock has not moved.
    let p : Poll := ⟨ataDevBusy, start⟩
    have hadv : Advances (2 ^ 31) start [p] := by simp [Advances, p]
    have hwait : ahciPortWait start timeout [p] = some (1, p) := by
      have hbusy : ¬ p.Clear := by
        change ¬ ataDevBusy &&& ataDevBusyDrqMask = 0
        decide
      rw [ahciPortWait, pollLoop, if_neg hbusy, if_pos (deadline_le_of_wrap (by omega))]
    have hpassed := (hall [p] hadv 1 p hwait).2.1 rfl
    rw [sub_self, le_def] at hpassed
    simp at hpassed
    omega
  · intro h polls _ r p hwait
    obtain ⟨hmem, ⟨rfl, hclear⟩ | ⟨rfl, hlate⟩⟩ := pollLoop_some hwait
    · exact ⟨hmem, fun h => absurd h (by decide), fun _ => hclear⟩
    · exact ⟨hmem, fun _ => timeout_le_of_deadline_le h hlate, fun h => absurd h (by decide)⟩

/-- Sixteen ticks before the counter wraps, a busy port is given up at the first poll. -/
theorem ahci_port_wait_gives_up_at_once : ¬ ∀ (start timeout : BitVec 32) (polls : List Poll),
    timeout.toNat < 2 ^ 31 → Advances (2 ^ 31) start polls → Honours start timeout polls := by
  intro h
  have hwait := h 0xFFFFFFF0#32 32#32 [⟨0x80#32, 0xFFFFFFF1#32⟩] (by decide) ⟨by decide, trivial⟩
  have hpassed := (hwait 1 ⟨0x80#32, 0xFFFFFFF1#32⟩ (by decide)).2.1 rfl
  revert hpassed
  decide

end Kolibri.Ahci
