import Kolibri.Lib.LinkedLists
import Kolibri.Lib.Run

/-! # Timers (`core/timers.inc`)

A pass of `check_timers` stops wherever a timer function is called, and what the function does comes as inputs.
`serial`, `serials`, `live` and `log` are not in the source: a record gets a new serial with each allocation,
`live` are the handles that are not cancelled yet, and `log` tells what was done.
-/

namespace Kolibri.Timers

open Function

structure Body where
  timerFunc : BitVec 32
  userData : BitVec 32
  time : BitVec 32
  interval : BitVec 32
  serial : Nat

structure Timer where
  next : BitVec 32
  prev : BitVec 32
  body : Body

inductive Kind
  /-- The loop comes to the timer. -/
  | turn
  | called
  /-- Cancelled by a timer function. -/
  | cancelled
  | unlinked
  | freed
  deriving DecidableEq

structure Event where
  kind : Kind
  serial : Nat
  deriving DecidableEq

structure Running where
  handle : BitVec 32
  oneShot : Bool
  timerFunc : BitVec 32
  userData : BitVec 32

structure State where
  timerList : BitVec 32
  timerTicks : BitVec 32
  timerNext : BitVec 32
  mem : BitVec 32 → Timer
  running : Option Running
  done : Bool
  serials : Nat
  live : List (BitVec 32)
  log : List Event

/-! ## The code -/

def setNext (mem : BitVec 32 → Timer) (a x : BitVec 32) : BitVec 32 → Timer := update mem a { mem a with next := x }

def setPrev (mem : BitVec 32 → Timer) (a x : BitVec 32) : BitVec 32 → Timer := update mem a { mem a with prev := x }

variable (s : State)

def timerHs (deltaStart interval timerFunc userData ebx : BitVec 32) : State :=
  if ebx = 0 then s
  else
    let ecx := if deltaStart ≠ 0 then deltaStart else interval
    let body : Body := { interval, timerFunc, userData, time := ecx + s.timerTicks, serial := s.serials }
    let mem := update s.mem ebx { s.mem ebx with body }
    let eax := s.timerList
    let ecx := (mem eax).prev
    let mem := setNext mem ebx eax
    let mem := setPrev mem ebx ecx
    let mem := setPrev mem eax ebx
    let mem := setNext mem ecx ebx
    { s with mem, serials := s.serials + 1, live := s.live ++ [ebx] }

def cancelTimerHs (ebx : BitVec 32) : State :=
  let eax := (s.mem ebx).next
  let ecx := (s.mem ebx).prev
  let mem := setPrev s.mem eax ecx
  let mem := setNext mem ecx eax
  let n := (s.mem ebx).body.serial
  { s with
    mem
    timerNext := if ebx = s.timerNext then eax else s.timerNext
    live := s.live.erase ebx
    log := s.log ++ [⟨.unlinked, n⟩, ⟨.freed, n⟩] }

/-- `[timer_ticks]` minus the time is not negative. -/
def Due (ticks : BitVec 32) (body : Body) : Prop := (ticks - body.time).msb = false
  deriving Decidable

def activate (eax : BitVec 32) : State :=
  let body := (s.mem eax).body
  let ecx := body.interval
  let running : Running :=
    { handle := eax, oneShot := ecx = 0, timerFunc := body.timerFunc, userData := body.userData }
  let mem := update s.mem eax { s.mem eax with body := { body with time := body.time + ecx } }
  let s := { s with mem, running := some running }
  let s := if ecx ≠ 0 then s else cancelTimerHs s eax
  { s with log := s.log ++ [⟨.called, body.serial⟩] }

def turn (s : State) : State :=
  let eax := s.timerNext
  if eax = s.timerList then { s with running := none, done := true }
  else
    let s :=
      { s with
        running := none
        timerNext := (s.mem eax).next
        log := s.log ++ [⟨.turn, (s.mem eax).body.serial⟩] }
    if Due s.timerTicks (s.mem eax).body then activate s eax else s

inductive Action
  | add (deltaStart interval timerFunc userData malloc : BitVec 32)
  | cancel (handle : BitVec 32)

inductive Input
  | turn
  | act (a : Action)

def act : Action → State
  | .add deltaStart interval timerFunc userData malloc => timerHs s deltaStart interval timerFunc userData malloc
  | .cancel handle =>
    cancelTimerHs { s with log := s.log ++ [⟨.cancelled, (s.mem handle).body.serial⟩] } handle

def step : Input → State × Unit
  | .turn => (if s.done then s else turn s, ())
  | .act a => (act s a, ())

/-- `malloc` gives nothing or memory that is not in use, and a handle is live or that of the timer that runs. -/
def Enabled : Input → Prop
  | .turn => True
  | .act (.add _ _ _ _ malloc) => s.running.isSome ∧ (malloc = 0 ∨ malloc ∉ s.timerList :: s.live)
  | .act (.cancel handle) => ∃ r, s.running = some r ∧ (handle ∈ s.live ∨ r.oneShot = true ∧ handle = r.handle)

/-- No function of a one-shot timer cancels this timer, whose record is free already. -/
def Good : Input → Prop
  | .act (.cancel handle) => ∀ r, s.running = some r → r.oneShot = true → handle = r.handle → handle ∈ s.live
  | _ => True

end Kolibri.Timers
