import Kolibri.Lib.Bytes

/-! # Handles and futexes (`core/dll.inc`, `posix/futex.inc`)

A used slot holds the address of a kernel object, and a free slot the index of the next free slot.
-/

namespace Kolibri.Posix

open Bytes Function

/-- For an object of another kind only `magic` and `handle` mean something. -/
structure Obj where
  magic : BitVec 32
  handle : BitVec 32
  destroy : BitVec 32
  waitList : List (BitVec 32)
  pointer : BitVec 32
  flags : BitVec 32

/-- Who made a live object. The code does not store this. -/
inductive Kind
  | object
  | futex
  deriving DecidableEq

/-- `live` is a record for the proofs: the objects handed out and not destroyed. -/
structure Process where
  htFree : BitVec 32
  htNext : BitVec 32
  htab : Nat → BitVec 32
  objs : BitVec 32 → Obj
  mem : Nat → BitVec 8
  state : BitVec 32 → BitVec 32
  live : BitVec 32 → Option Kind

def htabLen : Nat := 1006

def stderrFileno : BitVec 32 := 2

def futx : BitVec 32 := 0x58545546

def tstateRunning : BitVec 32 := 0
def tstateRunSuspended : BitVec 32 := 1
def tstateWaiting : BitVec 32 := 5

def initHandles (objs : BitVec 32 → Obj) (mem : Nat → BitVec 8) (state : BitVec 32 → BitVec 32) :
    Process where
  htFree := htabLen - 3
  htNext := 3
  htab := fun i => BitVec.ofNat 32 (i + 1)
  objs := objs
  mem := mem
  state := state
  live := fun _ => none

/-! ## Objects -/

variable (p : Process)

def Process.pushHandle (edx : BitVec 32) : Process :=
  { p with htab := update p.htab edx.toNat p.htNext, htNext := edx, htFree := p.htFree + 1 }

def createObject (blk : BitVec 32) (junk : Obj) : Process × BitVec 32 :=
  let edi := p.htNext
  if (p.htFree - 1).toInt < 0 then (p, 0)
  else
    let p := { p with htFree := p.htFree - 1, htNext := p.htab edi.toNat }
    if blk = 0 then (p.pushHandle edi, 0)
    else
      ({ p with
          objs := update p.objs blk { junk with handle := edi }
          htab := update p.htab edi.toNat blk
          live := update p.live blk (some .object) }, blk)

def destroyObject (obj : BitVec 32) : Process × BitVec 32 :=
  let edx := (p.objs obj).handle
  let p := p.pushHandle edx
  ({ p with live := update p.live obj none }, 0)

def createFutex (ptr blk : BitVec 32) (junk : Obj) : Process × BitVec 32 :=
  let (p, eax) := createObject p blk junk
  if eax = 0 then (p, 0)
  else
    let obj := { p.objs eax with magic := futx, destroy := 0, pointer := ptr, waitList := [], flags := 0 }
    ({ p with objs := update p.objs eax obj, live := update p.live eax (some .futex) }, eax)

/-! ## Objects by address -/

def userTop : Nat := 0x80000000

variable (a : BitVec 32)

/-- `[a + FUTEX.magic]`. Below `OS_BASE` this is memory of the process itself. -/
def Process.magicAt : BitVec 32 :=
  if a.toNat < userTop then readU32 p.mem (a.toNat + 8) else (p.objs a).magic

def Process.handleAt : BitVec 32 :=
  if a.toNat < userTop then readU32 p.mem (a.toNat + 12) else (p.objs a).handle

def Process.pointerAt : BitVec 32 :=
  if a.toNat < userTop then readU32 p.mem (a.toNat + 28) else (p.objs a).pointer

/-- The threads in the wait list, or `none` for a list whose links the process wrote itself. -/
def Process.waitersAt : Option (List (BitVec 32)) :=
  if a.toNat < userTop then
    if readU32 p.mem (a.toNat + 20) = a + 20 then some [] else none
  else some (p.objs a).waitList

def Process.setWaiters (l : List (BitVec 32)) : Process :=
  { p with objs := update p.objs a { p.objs a with waitList := l } }

/-! ## Futex calls -/

inductive Outcome
  | ret (eax : BitVec 32)
  | blocked
  | astray
  deriving DecidableEq

/-- A futex with waiting threads is not destroyed. -/
def destroyFutex (futex : BitVec 32) : Process × Outcome :=
  let edx := p.handleAt futex
  if p.waitersAt futex ≠ some [] then (p, .ret (-1))
  else
    let p := p.pushHandle edx
    ({ p with live := update p.live futex none }, .ret 0)

def futexWait (futex slot control timeout : BitVec 32) : Process × Outcome :=
  if readU32 p.mem (p.pointerAt futex).toNat ≠ control then (p, .ret (-2))
  else
    match p.waitersAt futex with
    | none => (p, .astray)
    | some waiters =>
      -- A wait on a list in user memory would write its links there.
      if futex.toNat < userTop then (p, .astray)
      else
        let asleep := if timeout ≠ 0 then tstateWaiting else tstateRunSuspended
        let p := p.setWaiters futex (waiters ++ [slot])
        ({ p with state := update p.state slot asleep }, .blocked)

/-- What a sleeping thread does when it runs again. -/
def futexResume (futex slot control : BitVec 32) (timedOut : Bool) : Process × Outcome :=
  let leave := p.setWaiters futex ((p.objs futex).waitList.erase slot)
  if timedOut then (leave, .ret (-1))
  else if readU32 p.mem (p.pointerAt futex).toNat = control then (p, .blocked)
  else (leave, .ret 0)

local instance lawfulWord : LawfulBEq (BitVec 32) := inferInstance

/-- The loop tests the count after each thread, so it wakes one thread even for a count of 0. -/
def futexWake (futex count : BitVec 32) : Process × Outcome :=
  match p.waitersAt futex with
  | none => (p, .astray)
  | some waiters =>
    let woken := waiters.take (max 1 count.toNat)
    ({ p with state := fun t => if t ∈ woken then tstateRunning else p.state t }, .ret (BitVec.ofNat 32 woken.length))

inductive FutexCall
  | destroy
  | wait (slot control timeout : BitVec 32)
  | wake (count : BitVec 32)
  | reserved
  deriving DecidableEq

/-- What a request did, and to which object. -/
structure Reply where
  outcome : Outcome
  target : Option (BitVec 32)
  deriving DecidableEq

def Process.reject : Process × Reply := (p, ⟨.ret (-1), none⟩)

def sysFutex (call : FutexCall) (ecx : BitVec 32) : Process × Reply :=
  if ecx ≤ stderrFileno then p.reject
  else if ecx.toNat ≥ htabLen then p.reject
  else
    let ebp := p.htab ecx.toNat
    if p.magicAt ebp ≠ futx then p.reject
    else if p.handleAt ebp ≠ ecx then p.reject
    else
      let run := fun (r : Process × Outcome) => (r.1, (⟨r.2, some ebp⟩ : Reply))
      match call with
      | .destroy => run (destroyFutex p ebp)
      | .wait slot control timeout => run (futexWait p ebp slot control timeout)
      | .wake count => run (futexWake p ebp count)
      | .reserved => p.reject

def sysFutexInit (ptr blk : BitVec 32) (junk : Obj) : Process × BitVec 32 :=
  let (p, eax) := createFutex p ptr blk junk
  if eax = 0 then (p, 0) else (p, (p.objs eax).handle)

end Kolibri.Posix
