import Kolibri.Lib.Ring
import Kolibri.Posix.Pipe
import Kolibri.Sync.Mutex

/-! # Threads on one pipe (`posix/pipe.inc`)

Each step reads or writes one word of the pipe. From `cli` to `popfd`, or to `change_task`, is one step, and so
are the test of a wait list and the wake-up behind it. `rep movsb` can be interrupted after each byte. What the
calls return is in `pipeRead` and `pipeWrite`. `readers` and `writers` stay as they are.
-/

namespace Kolibri.PipeThreads

open Mutex (mutexInit mutexLock mutexLockSlow mutexUnlock forever)
open Posix Run Threads Function

/-! ## Where a thread is -/

inductive Pc
  | idle
  | readEnter (esi : BitVec 32)
  | readAgain (esi : BitVec 32)
  | readChunk (ecx : BitVec 32)
  | readSub (ecx esi : BitVec 32)
  | readCopy (ecx esi : BitVec 32)
  | readWakeWriter
  | readWakeReader
  | readUnlock
  | readEof
  | readWait (esi : BitVec 32)
  | readRelock (esi : BitVec 32)
  | writeEnter (ebx : BitVec 32)
  | writeAgain (ebx : BitVec 32)
  | writeChunk (ecx ebx : BitVec 32)
  | writeAdd (ecx edi ebx : BitVec 32)
  | writeCopy (ecx edi ebx : BitVec 32)
  | writeWake (ebx : BitVec 32)
  | writeUnlock (ebx : BitVec 32)
  | writeEpipe
  | writeWait (ebx : BitVec 32)
  | writeRelock (ebx : BitVec 32)
  deriving DecidableEq

def Pc.busy : Pc → Bool
  | .idle | .readEnter _ | .readAgain _ | .readRelock _ | .writeEnter _ | .writeAgain _ | .writeRelock _ => false
  | _ => true

def Pc.cli : Pc → Bool
  | .readRelock _ | .writeRelock _ => true
  | _ => false

/-! ## State -/

/-- What a pointer leads to where a wake-up takes it for a thread slot. -/
inductive Target (τ : Type*)
  | slot (t : τ)
  | pipe (offset : Nat)
  | waiter (t : τ)
  | other (a : BitVec 32)
  deriving DecidableEq

def pipeLockOffset : Nat := 16
def rlistOffset : Nat := 40
def wlistOffset : Nat := 48

structure Data where
  pipe : Pipe
  inserted : List (BitVec 8)
  removed : List (BitVec 8)

structure State (τ : Type*) where
  lock : Mutex.State τ
  data : Data
  rlist : List τ
  wlist : List τ
  pc : τ → Pc
  stateWrites : List (Target τ)

/-- The thread that `change_task` picks, the word behind the `PIPE` record, and the progress of `rep movsb`. -/
structure Env (τ : Type*) where
  next : Option τ
  behind : Target τ
  k : Nat
  src : Nat → BitVec 8

variable {τ : Type*}

def start (cpu : Cpu τ) (ring : Nat → BitVec 8) : State τ where
  lock := mutexInit cpu
  data := ⟨⟨1, 1, 0, 0, 0, ring⟩, [], []⟩
  rlist := []
  wlist := []
  pc _ := .idle
  stateWrites := []

/-! ## The pipe's own words -/

def transfer (env : Env τ) (d : Data) : Pc → Data × Pc
  | .readAgain esi =>
    (d, if d.pipe.writers = 0 then .readEof
      else if d.pipe.count = 0 then .readWait esi
      else .readChunk (checkCount d.pipe.count esi))
  | .readChunk ecx => (d, .readSub ecx d.pipe.readEnd)
  | .readSub ecx esi => ({ d with pipe.count := d.pipe.count - ecx }, .readCopy ecx esi)
  | .readCopy ecx esi =>
    if ecx = 0 then ({ d with pipe.readEnd := esi &&& 0xFFF }, .readWakeWriter)
    else
      let k := min env.k ecx.toNat
      let bytes := (List.range k).map fun i => d.pipe.ring ((esi.toNat + i) % pipeBufferSize)
      ({ d with removed := d.removed ++ bytes }, .readCopy (ecx - BitVec.ofNat 32 k) (esi + BitVec.ofNat 32 k))
  | .writeAgain ebx =>
    (d, if d.pipe.readers = 0 then .writeEpipe
      else if 4096 - d.pipe.count = 0 then .writeWait ebx
      else .writeChunk (checkCount (4096 - d.pipe.count) ebx) ebx)
  | .writeChunk ecx ebx => (d, .writeAdd ecx d.pipe.writeEnd ebx)
  | .writeAdd ecx edi ebx => ({ d with pipe.count := d.pipe.count + ecx }, .writeCopy ecx edi (ebx - ecx))
  | .writeCopy ecx edi ebx =>
    if ecx = 0 then ({ d with pipe.writeEnd := edi &&& 0xFFF }, .writeWake ebx)
    else
      let k := min env.k ecx.toNat
      let bytes := (List.range k).map env.src
      ({ d with pipe.ring := Ring.put pipeBufferSize d.pipe.ring edi.toNat bytes, inserted := d.inserted ++ bytes },
        .writeCopy (ecx - BitVec.ofNat 32 k) (edi + BitVec.ofNat 32 k) ebx)
  | pc => (d, pc)

/-! ## Locks and wake-ups -/

variable [DecidableEq τ]

/-- The next step of `mutex_lock`. Behind `cli` the thread joins the wait list at once. -/
def lockStep (l : Mutex.State τ) (t : τ) (next : Option τ) (cli : Bool) : Mutex.State τ :=
  match l.place t with
  | .out =>
    let l' := mutexLock l t
    if cli && l'.place t = .decremented then mutexLockSlow l' t next else l'
  | .decremented => mutexLockSlow l t next
  | .waiting => forever l t next
  | .holding => l

variable (s : State τ) (t : τ) (next : Option τ)

def State.locking (cli : Bool) (locked : State τ → State τ) : State τ :=
  let s := { s with lock := lockStep s.lock t next cli }
  if s.lock.place t = .holding then locked s else s

def State.goto (pc : Pc) : State τ := { s with pc := update s.pc t pc }

def State.unlock : State τ := { s with lock := mutexUnlock s.lock t }

variable (behind : Target τ)

/-- The word at `MUTEX_WAITER.task` behind a pointer. -/
def State.task : Target τ → Target τ
  | .waiter t => .slot t
  | .pipe 40 =>
    match s.wlist with
    | [] => .pipe wlistOffset
    | w :: _ => .waiter w
  | _ => behind

def State.activate (eax : Target τ) : State τ :=
  { s with
      stateWrites := eax :: s.stateWrites
      lock :=
        match eax with
        | .slot t => { s.lock with cpu := s.lock.cpu.setRunning t true }
        | _ => s.lock }

def State.readWakeWriter : State τ :=
  if s.wlist = [] then s else s.activate (s.task behind (.pipe wlistOffset))

def State.readWakeReader : State τ :=
  if s.data.pipe.count = 0 ∨ s.rlist = [] then s else s.activate (s.task behind (.pipe rlistOffset))

/-- Where a reader waits, `eax` is not the list head any more when it is used for the writers. -/
def State.writeWake : State τ :=
  let eax := if s.rlist = [] then .pipe rlistOffset else s.task behind (.pipe rlistOffset)
  let s := if s.rlist = [] then s else s.activate eax
  if s.data.pipe.count = 4096 ∨ s.wlist = [] then s else s.activate (s.task behind eax)

def State.changeTask : State τ :=
  { s with lock.cpu := s.lock.cpu.switch next }

def State.suspend : State τ :=
  { s with lock.cpu := s.lock.cpu.setRunning t false, stateWrites := .slot t :: s.stateWrites }

def State.readWait : State τ :=
  let s := { s with rlist := s.rlist ++ [t] }
  ((s.unlock t).suspend t).changeTask next

/-- Here `ecx` is still the lock when the state is set, so the thread goes on running. -/
def State.writeWait : State τ :=
  let s := { s with wlist := s.wlist ++ [t] }
  let s := s.unlock t
  { s with stateWrites := .pipe pipeLockOffset :: s.stateWrites }.changeTask next

/-! ## Runs -/

def State.go (env : Env τ) : State τ :=
  match s.pc t with
  | .idle => s
  | .readEnter esi => s.locking t env.next false fun s => s.goto t (.readAgain esi)
  | .readRelock esi =>
    s.locking t env.next true fun s => { s with rlist := s.rlist.erase t }.goto t (.readAgain esi)
  | .readWakeWriter => (s.readWakeWriter env.behind).goto t .readWakeReader
  | .readWakeReader => (s.readWakeReader env.behind).goto t .readUnlock
  | .readUnlock | .readEof | .writeEpipe => (s.unlock t).goto t .idle
  | .readWait esi => (s.readWait t env.next).goto t (.readRelock esi)
  | .writeEnter ebx => s.locking t env.next false fun s => s.goto t (.writeAgain ebx)
  | .writeRelock ebx =>
    s.locking t env.next true fun s => { s with wlist := s.wlist.erase t }.goto t (.writeAgain ebx)
  | .writeWake ebx => (s.writeWake env.behind).goto t (.writeUnlock ebx)
  | .writeUnlock ebx =>
    -- `.again` is behind `mutex_lock`: the rest is written without the lock.
    (s.unlock t).goto t (if ebx = 0 then .idle else .writeAgain ebx)
  | .writeWait ebx => (s.writeWait t env.next).goto t (.writeRelock ebx)
  | pc =>
    let (data, pc) := transfer env s.data pc
    { s with data }.goto t pc

inductive Event (τ : Type*)
  | read (t : τ) (esi : BitVec 32)
  | write (t : τ) (esi : BitVec 32)
  | go (t : τ) (env : Env τ)
  | interrupt (next : Option τ)
  /-- Other code of the kernel suspends or wakes a thread. -/
  | setState (t : τ) (running : Bool)

def step : Event τ → State τ × Unit
  | .read t esi => (s.goto t (.readEnter esi), ())
  | .write t esi => (s.goto t (.writeEnter esi), ())
  | .go t env => (s.go t env, ())
  | .interrupt next => (s.changeTask next, ())
  | .setState t running => ({ s with lock.cpu := s.lock.cpu.setRunning t running }, ())

def Yields : Prop :=
  match s.pc t with
  | .readWait _ | .writeWait _ => True
  | .readEnter _ | .writeEnter _ => s.lock.place t ≠ .out ∧ s.lock.count ≠ 1
  | .readRelock _ | .writeRelock _ => s.lock.count ≠ 1
  | _ => False

def Interruptible : Prop :=
  match s.lock.cpu.current with
  | none => True
  | some t => s.lock.place t ≠ .waiting ∧ (s.pc t).cli = false

/-- Other code does not suspend threads that wait for the lock or for the pipe. -/
def Enabled : Event τ → Prop
  | .read t _ | .write t _ => s.lock.cpu.current = some t ∧ s.pc t = .idle
  | .go t env =>
    s.lock.cpu.current = some t ∧ s.pc t ≠ .idle ∧ (Yields s t → (s.go t env).lock.cpu.CanRun env.next)
  | .interrupt next => Interruptible s ∧ s.lock.cpu.CanRun next
  | .setState t running => s.lock.place t ≠ .waiting ∧ (s.pc t).cli = false ∨ running = true

instance (s : State τ) (t : τ) : Decidable (Yields s t) := by
  unfold Yields
  split <;> infer_instance

instance (s : State τ) : Decidable (Interruptible s) := by
  unfold Interruptible
  split <;> infer_instance

instance (s : State τ) : (e : Event τ) → Decidable (Enabled s e)
  | .read _ _ => inferInstanceAs (Decidable (_ ∧ _))
  | .write _ _ => inferInstanceAs (Decidable (_ ∧ _))
  | .go _ _ => inferInstanceAs (Decidable (_ ∧ _ ∧ (_ → _)))
  | .interrupt _ => inferInstanceAs (Decidable (_ ∧ _))
  | .setState _ _ => inferInstanceAs (Decidable (_ ∧ _ ∨ _))

end Kolibri.PipeThreads
