/-!
# Calls that fail or abort

A call returns a value, reports an error with a text, or aborts on an access out of bounds.
-/

namespace Kolibri

inductive Failure where
  | error (text : String)
  | abort
deriving DecidableEq, Repr

abbrev Outcome (α : Type) := Except Failure α

namespace Outcome

variable {α β : Type}

def fail (text : String) : Outcome α := .error (.error text)

def require (p : Prop) [Decidable p] (text : String) : Outcome Unit :=
  if p then .ok () else fail text

def within (p : Prop) [Decidable p] : Outcome Unit :=
  if p then .ok () else .error .abort

theorem bind_eq_ok {x : Outcome α} {f : α → Outcome β} {r : β} :
    (x >>= f) = .ok r ↔ ∃ a, x = .ok a ∧ f a = .ok r := by
  cases x with
  | error e => simp [bind, Except.bind]
  | ok a => simp [bind, Except.bind]

@[simp] theorem ok_bind (a : α) (f : α → Outcome β) : ((.ok a : Outcome α) >>= f) = f a := rfl

@[simp] theorem fail_ne_ok {text : String} {a : α} : (fail text : Outcome α) ≠ .ok a := by
  simp [fail]

@[simp] theorem require_eq_ok {p : Prop} [Decidable p] {text : String} {u : Unit} : require p text = .ok u ↔ p := by
  unfold require
  split <;> simp_all

@[simp] theorem within_eq_ok {p : Prop} [Decidable p] {u : Unit} : within p = .ok u ↔ p := by
  unfold within
  split <;> simp_all

theorem require_of_pos {p : Prop} [Decidable p] {text : String} (h : p) : require p text = .ok () :=
  require_eq_ok.mpr h

theorem within_of_pos {p : Prop} [Decidable p] (h : p) : within p = .ok () :=
  within_eq_ok.mpr h

end Outcome

end Kolibri
