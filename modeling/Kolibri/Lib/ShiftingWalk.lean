import Mathlib

/-! # Walking over an array that closes its gaps

A walk that goes on to the next place does not see the entry that has moved up.
-/

namespace Kolibri.ShiftingWalk

open List

variable {α : Type} (f : α → Option α)

/-- What is left of some entries, as long as there are places for all of them. -/
def walk : List α → List α
  | [] => []
  | [a] => (f a).toList
  | a :: b :: l =>
    match f a with
    | some a' => a' :: walk (b :: l)
    | none => b :: walk l

/-- So many places, with the entries that went. `fill` closes the gap at the end. -/
def pass (fill : α) : Nat → List α → List α × Nat
  | 0, l => (l, 0)
  | _ + 1, [] => ([], 0)
  | k + 1, a :: l =>
    match f a with
    | some a' => (a' :: (pass fill k l).1, (pass fill k l).2)
    | none =>
      let l' := (l ++ [fill]).tail
      ((l ++ [fill]).headD fill :: (pass fill k l').1, (pass fill k l').2 + 1)

variable {f} {fill : α} {Spare : α → Prop}

end Kolibri.ShiftingWalk
