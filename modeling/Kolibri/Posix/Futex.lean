import Kolibri.Lib.Run
import Kolibri.Lib.Threads

/-! # Futexes (`posix/futex.inc`)

The comparison in `.wait` is a step of its own. From the `cli` of `.wait_slow` on each part up to `change_task`
or `popfd` is one step, and so is `.wake`. Waiting with a timeout is left out.
-/

namespace Kolibri.Futex

open Run Threads Function

inductive Place (ν : Type*)
  | out
  | compared (v : ν)
  | waiting (v : ν)
  deriving DecidableEq

structure State (τ ν : Type*) where
  cpu : Cpu τ
  word : ν
  waitList : List τ
  place : τ → Place ν

variable {τ ν : Type*}

def createFutex (cpu : Cpu τ) (word : ν) : State τ ν where
  cpu
  word
  waitList := []
  place _ := .out

def againWake (edx : Nat) : List τ → Nat → List τ × Nat
  | [], ecx => ([], ecx)
  | w :: l, ecx =>
    let ecx := ecx + 1
    if ecx < edx then
      let (woken, ecx) := againWake edx l ecx
      (w :: woken, ecx)
    else ([w], ecx)

variable [DecidableEq τ] [DecidableEq ν] (s : State τ ν)

/-- The comparison in `.wait`. The result is -2 if the word is another one. -/
def wait (t : τ) (edx : ν) : State τ ν × Option Int :=
  if s.word = edx then ({ s with place := update s.place t (.compared edx) }, none) else (s, some (-2))

/-- `.wait_slow`, up to `change_task`. -/
def waitSlow (t : τ) (next : Option τ) : State τ ν × Option Int :=
  match s.place t with
  | .compared edx =>
    ({ s with
        cpu := (s.cpu.setRunning t false).switch next
        waitList := s.waitList ++ [t]
        place := update s.place t (.waiting edx) }, none)
  | _ => (s, none)

def again (t : τ) (next : Option τ) : State τ ν × Option Int :=
  match s.place t with
  | .waiting edx =>
    if s.word = edx then ({ s with cpu := (s.cpu.setRunning t false).switch next }, none)
    else ({ s with waitList := s.waitList.erase t, place := update s.place t .out }, some 0)
  | _ => (s, none)

def wake (s : State τ ν) (edx : Nat) : State τ ν × Option Int :=
  let (woken, ecx) := againWake edx s.waitList 0
  ({ s with cpu := s.cpu.wake woken }, some ecx)

/-! ## Runs -/

inductive Event (τ ν : Type*)
  | store (t : τ) (w : ν)
  | wait (t : τ) (v : ν)
  | waitSlow (t : τ) (next : Option τ)
  | again (t : τ) (next : Option τ)
  | wake (t : τ) (n : Nat)
  | interrupt (next : Option τ)

def step : Event τ ν → State τ ν × Option Int
  | .store _ w => ({ s with word := w }, none)
  | .wait t v => wait s t v
  | .waitSlow t next => waitSlow s t next
  | .again t next => again s t next
  | .wake _ n => wake s n
  | .interrupt next => ({ s with cpu := s.cpu.switch next }, none)

def Place.isCompared : Place ν → Bool
  | .compared _ => true
  | _ => false

def Place.isWaiting : Place ν → Bool
  | .waiting _ => true
  | _ => false

def Interruptible : Prop :=
  match s.cpu.current with
  | none => True
  | some t => (s.place t).isWaiting = false

/-- Only the current thread acts, and `change_task` picks a thread that is running. -/
def Enabled : Event τ ν → Prop
  | .store t _ | .wait t _ | .wake t _ => s.cpu.current = some t ∧ s.place t = .out
  | .waitSlow t next =>
    s.cpu.current = some t ∧ (s.place t).isCompared = true ∧ (s.cpu.setRunning t false).CanRun next
  | .again t next =>
    s.cpu.current = some t ∧ (s.place t).isWaiting = true ∧ (s.cpu.setRunning t false).CanRun next
  | .interrupt next => Interruptible s ∧ s.cpu.CanRun next

/-- A thread waits only if the word still has its value, and no call wakes 0 threads. -/
def Meets : Event τ ν → Prop
  | .waitSlow t _ => s.place t = .compared s.word
  | .wake _ n => n ≠ 0 ∨ s.waitList = []
  | _ => True

instance (s : State τ ν) : Decidable (Interruptible s) := by
  unfold Interruptible
  split <;> infer_instance

instance (s : State τ ν) : (e : Event τ ν) → Decidable (Enabled s e)
  | .store _ _ | .wait _ _ | .wake _ _ => inferInstanceAs (Decidable (_ ∧ _))
  | .waitSlow _ _ | .again _ _ => inferInstanceAs (Decidable (_ ∧ _ ∧ _))
  | .interrupt _ => inferInstanceAs (Decidable (_ ∧ _))

instance (s : State τ ν) : (e : Event τ ν) → Decidable (Meets s e)
  | .waitSlow _ _ => inferInstanceAs (Decidable (_ = _))
  | .wake _ _ => inferInstanceAs (Decidable (_ ∨ _))
  | .store _ _ | .wait _ _ | .again _ _ | .interrupt _ => inferInstanceAs (Decidable True)

/-! ## Waking -/

omit [DecidableEq τ] in
theorem again_wake_spec (edx : Nat) (l : List τ) (ecx : Nat) :
    againWake edx l ecx = (l.take (max (edx - ecx) 1), ecx + min (max (edx - ecx) 1) l.length) := by
  induction l generalizing ecx with
  | nil => simp [againWake]
  | cons w l ih =>
    unfold againWake
    by_cases hlt : ecx + 1 < edx
    · simp only [if_pos hlt, ih, show max (edx - ecx) 1 = max (edx - (ecx + 1)) 1 + 1 by omega, List.take_succ_cons,
        List.length_cons, Prod.mk.injEq, true_and]
      omega
    · simp [if_neg hlt, show max (edx - ecx) 1 = 1 by omega]

omit [DecidableEq ν] in
theorem wake_spec (n : Nat) :
    wake s n = ({ s with cpu := s.cpu.wake (s.waitList.take (max n 1)) }, some ↑(min (max n 1) s.waitList.length)) := by
  simp [wake, again_wake_spec]

/-- What a call for `n` threads is to do. -/
structure Wakes (s s' : State τ ν) (eax : Option Int) (n : Nat) : Prop where
  result : eax = some ↑(min n s.waitList.length)
  woken : ∀ w ∈ s.waitList.take n, s'.cpu.running w = true
  others : ∀ w, w ∉ s.waitList.take n → s'.cpu.running w = s.cpu.running w

omit [DecidableEq ν] in
theorem wake_wakes_iff {s : State τ ν} {n : Nat} : Wakes s (wake s n).1 (wake s n).2 n ↔ n ≠ 0 ∨ s.waitList = [] := by
  rw [wake_spec]
  constructor
  · intro h
    have hresult := h.result
    simp only [Option.some.injEq, Int.natCast_inj] at hresult
    rw [← List.length_eq_zero_iff]
    omega
  intro h
  have htake : s.waitList.take (max n 1) = s.waitList.take n ∧
      min (max n 1) s.waitList.length = min n s.waitList.length := by
    rcases h with hn | hl
    · rw [show max n 1 = n by omega]
      exact ⟨rfl, rfl⟩
    · simp [hl]
  rw [htake.1, htake.2]
  exact ⟨rfl, fun w hw => by simp [hw], fun w hw => by simp [hw]⟩

/-! ## The wait list -/

structure Inv (s : State τ ν) : Prop where
  listed : ∀ t, t ∈ s.waitList ↔ (s.place t).isWaiting = true
  nodup : s.waitList.Nodup

omit [DecidableEq τ] [DecidableEq ν] in
theorem create_futex_inv (cpu : Cpu τ) (word : ν) : Inv (createFutex cpu word) := by
  constructor <;> simp [createFutex, Place.isWaiting]

omit [DecidableEq ν] in
theorem listed_update {s : State τ ν} {t : τ} {p : Place ν} (I : Inv s) (hp : p.isWaiting = (s.place t).isWaiting) :
    ∀ u, u ∈ s.waitList ↔ (update s.place t p u).isWaiting = true := by
  intro u
  by_cases hu : u = t
  · rw [hu, update_self, hp]
    exact I.listed t
  · rw [update_of_ne hu]
    exact I.listed u

theorem step_inv (e : Event τ ν) (I : Inv s) (he : Enabled s e) : Inv (step s e).1 := by
  cases e with
  | store t w => exact ⟨I.listed, I.nodup⟩
  | wait t v =>
    simp only [step, wait]
    split_ifs
    · exact ⟨listed_update I (by simp [he.2, Place.isWaiting]), I.nodup⟩
    · exact I
  | waitSlow t next =>
    cases hp : s.place t with
    | compared v =>
      have hout : t ∉ s.waitList := by simp [I.listed, hp, Place.isWaiting]
      simp only [step, waitSlow, hp]
      refine ⟨fun u => ?_, ?_⟩
      · by_cases hu : u = t
        · simp [hu, Place.isWaiting]
        · simp [hu, I.listed]
      · simp only [List.nodup_append, I.nodup, List.nodup_singleton, List.mem_singleton, true_and]
        rintro a ha b rfl rfl
        exact hout ha
    | out | waiting v =>
      have hcompared := he.2.1
      simp [hp, Place.isCompared] at hcompared
  | again t next =>
    cases hp : s.place t with
    | waiting v =>
      simp only [step, again, hp]
      split_ifs
      · exact ⟨I.listed, I.nodup⟩
      · refine ⟨fun u => ?_, I.nodup.erase t⟩
        by_cases hu : u = t
        · simp [hu, I.nodup.mem_erase_iff, Place.isWaiting]
        · simp [hu, I.nodup.mem_erase_iff, I.listed]
    | out | compared v =>
      have hwaiting := he.2.1
      simp [hp, Place.isWaiting] at hwaiting
  | wake t n =>
    simp only [step, wake_spec]
    exact ⟨I.listed, I.nodup⟩
  | interrupt next => exact ⟨I.listed, I.nodup⟩

/-! ## No lost wake-up -/

def Away (v : ν) : State τ ν → List (Event τ ν) → Prop
  | s, [] => s.word ≠ v
  | s, e :: events => s.word ≠ v ∧ Away v (step s e).1 events

instance decidableAway (v : ν) : (s : State τ ν) → (events : List (Event τ ν)) → Decidable (Away v s events)
  | s, [] => inferInstanceAs (Decidable (s.word ≠ v))
  | s, e :: events =>
    have := decidableAway v (step s e).1 events
    inferInstanceAs (Decidable (s.word ≠ v ∧ Away v (step s e).1 events))

def AllRun (v : ν) (s : State τ ν) : Prop := ∀ t, s.place t = .waiting v → s.cpu.running t = true

omit [DecidableEq ν] in
theorem wake_all_run {s : State τ ν} {n : Nat} (I : Inv s) (hn : s.waitList.length ≤ n) (v : ν) :
    AllRun v (wake s n).1 := by
  intro t ht
  rw [wake_spec] at ht ⊢
  have hmem : t ∈ s.waitList := (I.listed t).mpr (by rw [show s.place t = _ from ht]; rfl)
  have hall : s.waitList.take (max n 1) = s.waitList := List.take_of_length_le (by omega)
  simp [hall, hmem]

theorem step_all_run {v : ν} {s : State τ ν} {e : Event τ ν} (A : AllRun v s) (hv : s.word ≠ v) (he : Meets s e) :
    AllRun v (step s e).1 := by
  cases e with
  | store t w => exact A
  | wait t w =>
    simp only [step, wait]
    split_ifs
    · intro u hu
      by_cases hut : u = t
      · simp [hut] at hu
      · exact A u (by simpa [hut] using hu)
    · exact A
  | waitSlow t next =>
    have hp : s.place t = .compared s.word := he
    simp only [step, waitSlow, hp]
    intro u hu
    by_cases hut : u = t
    · -- It waits for the word to change from its present value.
      simp only [hut, update_self, Place.waiting.injEq] at hu
      exact absurd hu hv
    · simpa [hut] using A u (by simpa [hut] using hu)
  | again t next =>
    cases hp : s.place t with
    | waiting w =>
      simp only [step, again, hp]
      split_ifs with hw
      · intro u hu
        have hut : u ≠ t := by
          rintro rfl
          rw [show s.place u = _ from hu, Place.waiting.injEq] at hp
          exact hv (hw.trans hp.symm)
        simpa [hut] using A u hu
      · intro u hu
        by_cases hut : u = t
        · simp [hut] at hu
        · exact A u (by simpa [hut] using hu)
    | out => simpa only [step, again, hp] using A
    | compared w => simpa only [step, again, hp] using A
  | wake t n =>
    simp only [step, wake_spec]
    intro u hu
    simp [A u hu]
  | interrupt next => exact A

theorem final_all_run {v : ν} {s : State τ ν} {events : List (Event τ ν)} (A : AllRun v s) (haway : Away v s events)
    (hrun : Allowed step Meets s events) : AllRun v (final step s events) := by
  induction events generalizing s with
  | nil => exact A
  | cons e events ih => exact ih (step_all_run A haway.1 hrun.1) haway.2 hrun.2

/-- No thread sleeps with `v` if the word has been away from `v` since a call that was to wake all waiters. -/
def NoLostWake (events : List (Event τ ν)) : Prop :=
  ∀ before t n after v, events = before ++ .wake t n :: after → (final step s before).waitList.length ≤ n →
    Away v (final step s (before ++ [.wake t n])) after → AllRun v (final step s events)

/-- Every call of `wake` does what it is to do. -/
def WakesAll (events : List (Event τ ν)) : Prop :=
  ∀ c ∈ trace step s events, ∀ t n, c.input = .wake t n → Wakes c.before c.after c.output n

theorem futex_no_lost_wake (cpu : Cpu τ) (word : ν) (events : List (Event τ ν))
    (hrun : Allowed step Enabled (createFutex cpu word) events) (hmeets : Allowed step Meets (createFutex cpu word) events) :
    NoLostWake (createFutex cpu word) events ∧ WakesAll (createFutex cpu word) events := by
  constructor
  · rintro before t n after v rfl hn haway
    have hbefore := (allowed_append.mp hrun).1
    have I := final_inv step_inv (create_futex_inv cpu word) hbefore
    have hafter := (allowed_append.mp hmeets).2.2
    simp only [final_append, final_cons, final_nil] at haway ⊢
    exact final_all_run (wake_all_run I hn v) haway hafter
  intro c hc t n hin
  have hboth := allowed_and hrun hmeets
  obtain ⟨-, ⟨-, hok⟩, hstep⟩ :=
    trace_inv (fun s e I h => step_inv s e I h.1) (create_futex_inv cpu word) hboth c hc
  rw [hin] at hok hstep
  have hwakes : Wakes c.before (wake c.before n).1 (wake c.before n).2 n := wake_wakes_iff.mpr hok
  rwa [show wake c.before n = (c.after, c.output) from hstep] at hwakes

def properWait : List (Event Bool Nat) :=
  [.wait false 0, .waitSlow false (some true), .store true 1, .wake true 1, .interrupt (some false), .again false none]

theorem futex_no_lost_wake_two :
    Allowed step Enabled (createFutex ⟨some false, fun _ => true⟩ 0) properWait ∧
    Allowed step Meets (createFutex ⟨some false, fun _ => true⟩ 0) properWait ∧
    NoLostWake (createFutex ⟨some false, fun _ => true⟩ 0) properWait ∧
    WakesAll (createFutex ⟨some false, fun _ => true⟩ 0) properWait :=
  ⟨by decide, by decide, futex_no_lost_wake ⟨some false, fun _ => true⟩ 0 properWait (by decide) (by decide)⟩

/-- The waiter is interrupted between the comparison and `cli`. -/
def lateWait : List (Event Bool Nat) :=
  [.wait false 0, .interrupt (some true), .store true 1, .wake true 1, .interrupt (some false),
    .waitSlow false (some true)]

/-- The waiter goes to sleep behind the call that was to wake it, and a call for no thread wakes one. -/
theorem futex_loses_wake :
    (¬ ∀ (cpu : Cpu Bool) (word : Nat) (events : List (Event Bool Nat)),
      Allowed step Enabled (createFutex cpu word) events → NoLostWake (createFutex cpu word) events) ∧
    ¬ ∀ (cpu : Cpu Bool) (word : Nat) (events : List (Event Bool Nat)),
      Allowed step Enabled (createFutex cpu word) events → WakesAll (createFutex cpu word) events := by
  constructor
  · intro hall
    have hlost := hall ⟨some false, fun _ => true⟩ 0 lateWait (by decide) [.wait false 0, .interrupt (some true), .store true 1]
      true 1 [.interrupt (some false), .waitSlow false (some true)] 0 rfl (by decide) (by decide)
    exact absurd (hlost false (by decide)) (by decide)
  · intro hall
    have hwakes := hall ⟨some false, fun _ => true⟩ 0 [.wait false 0, .waitSlow false (some true), .wake true 0] (by decide)
      _ (List.getElem_mem (n := 2) (by decide)) true 0 rfl
    exact absurd hwakes.result (by decide)

end Kolibri.Futex
