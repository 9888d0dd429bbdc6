import Kolibri.Lib.Run
import Kolibri.Lib.Threads

/-! # Mutexes (`core/sync.inc`)

`mutex_unlock` is one step, and so is each round of `mutex_lock` from `cli` or the return of `change_task` to the
next `change_task` or to `popfd`. `dec [count]` is a step of its own. `count` is a number here, see
`mutex_count_bounds`.
-/

namespace Kolibri.Mutex

open Run Threads Function

inductive Place
  | out
  | decremented
  | waiting
  | holding
  deriving DecidableEq

structure State (τ : Type*) where
  cpu : Cpu τ
  count : Int
  waitList : List τ
  place : τ → Place

variable {τ : Type*}

def mutexInit (cpu : Cpu τ) : State τ where
  cpu
  count := 1
  waitList := []
  place _ := .out

variable [DecidableEq τ] (s : State τ)

def mutexLock (t : τ) : State τ :=
  let count := s.count - 1
  { s with count, place := update s.place t (if 0 ≤ count then .holding else .decremented) }

/-- A round of `.forever`: the thread gets the mutex, or it is suspended and `next` runs. -/
def forever (t : τ) (next : Option τ) : State τ :=
  let eax := s.count
  if eax - 1 = 0 then
    let waitList := s.waitList.erase t
    { s with count := if waitList = [] then 0 else -1, waitList, place := update s.place t .holding }
  else
    { s with count := -1, cpu := (s.cpu.setRunning t false).switch next, place := update s.place t .waiting }

/-- From `cli` on: the thread joins the wait list. -/
def mutexLockSlow (t : τ) (next : Option τ) : State τ :=
  forever { s with waitList := s.waitList ++ [t] } t next

def mutexUnlock (t : τ) : State τ :=
  { s with
      count := 1
      cpu :=
        match s.waitList with
        | [] => s.cpu
        | w :: _ => s.cpu.setRunning w true
      place := update s.place t .out }

/-! ## Runs -/

inductive Event (τ : Type*)
  | lock (t : τ)
  | lockSlow (t : τ) (next : Option τ)
  | again (t : τ) (next : Option τ)
  | unlock (t : τ)
  | interrupt (next : Option τ)
  /-- Other code of the kernel suspends or wakes a thread. -/
  | setState (t : τ) (running : Bool)

def step : Event τ → State τ × Unit
  | .lock t => (mutexLock s t, ())
  | .lockSlow t next => (mutexLockSlow s t next, ())
  | .again t next => (forever s t next, ())
  | .unlock t => (mutexUnlock s t, ())
  | .interrupt next => ({ s with cpu := s.cpu.switch next }, ())
  | .setState t running => ({ s with cpu := s.cpu.setRunning t running }, ())

def Interruptible : Prop :=
  match s.cpu.current with
  | none => True
  | some t => s.place t ≠ .waiting

/-- Only the current thread acts, and `change_task` picks a thread that is running. -/
def Enabled : Event τ → Prop
  | .lock t => s.cpu.current = some t ∧ s.place t = .out
  | .lockSlow t next =>
    s.cpu.current = some t ∧ s.place t = .decremented ∧ (s.count ≠ 1 → (s.cpu.setRunning t false).CanRun next)
  | .again t next =>
    s.cpu.current = some t ∧ s.place t = .waiting ∧ (s.count ≠ 1 → (s.cpu.setRunning t false).CanRun next)
  | .unlock t => s.cpu.current = some t ∧ s.place t = .holding
  | .interrupt next => Interruptible s ∧ s.cpu.CanRun next
  | .setState t running => s.place t ≠ .waiting ∨ running = true

instance (s : State τ) : Decidable (Interruptible s) := by
  unfold Interruptible
  split <;> infer_instance

instance (s : State τ) : (e : Event τ) → Decidable (Enabled s e)
  | .lock _ => inferInstanceAs (Decidable (_ ∧ _))
  | .lockSlow _ _ => inferInstanceAs (Decidable (_ ∧ _ ∧ (_ → _)))
  | .again _ _ => inferInstanceAs (Decidable (_ ∧ _ ∧ (_ → _)))
  | .unlock _ => inferInstanceAs (Decidable (_ ∧ _))
  | .interrupt _ => inferInstanceAs (Decidable (_ ∧ _))
  | .setState _ _ => inferInstanceAs (Decidable (_ ∨ _))

/-! ## The invariant -/

/-- The count is 1 as long as the mutex is free. -/
structure Inv (s : State τ) : Prop where
  le : s.count ≤ 1
  free : s.count = 1 ↔ ∀ t, s.place t ≠ .holding
  one : ∀ t u, s.place t = .holding → s.place u = .holding → t = u
  listed : ∀ t, t ∈ s.waitList ↔ s.place t = .waiting
  nodup : s.waitList.Nodup
  first : s.count = 1 → ∀ w l, s.waitList = w :: l → s.cpu.running w = true

omit [DecidableEq τ] in
theorem mutex_init_inv (cpu : Cpu τ) : Inv (mutexInit cpu) := by
  constructor <;> simp [mutexInit]

variable {s : State τ} {t : τ}

theorem mutex_lock_inv (I : Inv s) (ht : s.place t = .out) : Inv (mutexLock s t) := by
  have hlisted : ∀ u x, x ≠ Place.waiting → (u ∈ s.waitList ↔ update s.place t x u = .waiting) := by
    intro u x hx
    by_cases hu : u = t
    · simp [hu, hx, I.listed, ht]
    · simp [hu, I.listed]
  unfold mutexLock
  by_cases hone : s.count = 1
  · -- The mutex was free.
    have hfree := I.free.mp hone
    simp only [hone]
    refine ⟨by simp, ?_, fun u v hu hv => ?_, fun u => hlisted u _ (by simp), I.nodup, by simp⟩
    · simp only [Int.sub_self, le_refl, if_true, Int.zero_ne_one, false_iff, not_forall, not_not]
      exact ⟨t, by simp⟩
    have hself : ∀ u, update s.place t Place.holding u = .holding → u = t := by
      intro u hu
      by_contra hne
      rw [update_of_ne hne] at hu
      exact hfree u hu
    rw [hself u (by simpa using hu), hself v (by simpa using hv)]
  have hle := I.le
  have hneg : ¬ 0 ≤ s.count - 1 := by omega
  have hplace : ∀ u, update s.place t Place.decremented u = .holding ↔ s.place u = .holding := by
    intro u
    by_cases hu : u = t
    · simp [hu, ht]
    · simp [hu]
  simp only [if_neg hneg]
  refine ⟨by simp only; omega, ?_, fun u v hu hv => ?_, fun u => hlisted u _ (by simp), I.nodup,
    fun hc => by simp only at hc; omega⟩
  · simp only [ne_eq, hplace]
    have hfree := I.free
    rw [← hfree]
    omega
  · exact I.one u v ((hplace u).mp hu) ((hplace v).mp hv)

theorem forever_inv (next : Option τ) (hfree : s.count = 1 ↔ ∀ u, s.place u ≠ .holding)
    (hone : ∀ u v, s.place u = .holding → s.place v = .holding → u = v)
    (hlisted : ∀ u, u ≠ t → (u ∈ s.waitList ↔ s.place u = .waiting)) (hnodup : s.waitList.Nodup)
    (hmem : t ∈ s.waitList) (ht : s.place t ≠ .holding) : Inv (forever s t next) := by
  unfold forever
  by_cases hc : s.count = 1
  · have hno := hfree.mp hc
    rw [if_pos (by omega)]
    have hself : ∀ u, update s.place t Place.holding u = .holding ↔ u = t := by
      intro u
      by_cases hu : u = t
      · simp [hu]
      · simp [hu, hno u]
    refine ⟨by simp only; omega, ?_, fun u v hu hv => ?_, fun u => ?_, hnodup.erase t, fun h1 => ?_⟩
    · simp only [ne_eq, hself]
      refine ⟨fun h1 => by omega, fun h1 => absurd rfl (h1 t)⟩
    · rw [(hself u).mp hu, (hself v).mp hv]
    · simp only [hnodup.mem_erase_iff]
      by_cases hu : u = t
      · simp [hu]
      · simp [hu, hlisted u hu]
    · simp only at h1
      omega
  · rw [if_neg (by omega)]
    have hplace : ∀ u, update s.place t Place.waiting u = .holding ↔ s.place u = .holding := by
      intro u
      by_cases hu : u = t
      · simp [hu, ht]
      · simp [hu]
    refine ⟨by simp, ?_, fun u v hu hv => ?_, fun u => ?_, hnodup, fun h1 => by simp at h1⟩
    · simp only [ne_eq, hplace]
      refine ⟨fun h1 => by omega, fun h1 => absurd (hfree.mpr h1) hc⟩
    · exact hone u v ((hplace u).mp hu) ((hplace v).mp hv)
    · by_cases hu : u = t
      · simp [hu, hmem]
      · simp [hu, hlisted u hu]

theorem mutex_lock_slow_inv (next : Option τ) (I : Inv s) (ht : s.place t = .decremented) :
    Inv (mutexLockSlow s t next) := by
  have hout : t ∉ s.waitList := by simp [I.listed, ht]
  refine forever_inv next I.free I.one (fun u hu => ?_) ?_ (by simp) (by simp [ht])
  · simp [hu, I.listed]
  · simp [List.nodup_append, I.nodup]
    exact fun a ha he => hout (he ▸ ha)

theorem again_inv (next : Option τ) (I : Inv s) (ht : s.place t = .waiting) : Inv (forever s t next) :=
  forever_inv next I.free I.one (fun u _ => I.listed u) I.nodup ((I.listed t).mpr ht) (by simp [ht])

theorem mutex_unlock_inv (I : Inv s) (ht : s.place t = .holding) : Inv (mutexUnlock s t) := by
  have hno : ∀ u, update s.place t Place.out u ≠ .holding := by
    intro u
    by_cases hu : u = t
    · simp [hu]
    · rw [update_of_ne hu]
      exact fun h => hu (I.one u t h ht)
  refine ⟨le_refl _, ⟨fun _ => hno, fun _ => rfl⟩, fun u v hu _ => absurd hu (hno u), fun u => ?_, I.nodup, ?_⟩
  · show u ∈ s.waitList ↔ update s.place t Place.out u = .waiting
    by_cases hu : u = t
    · simp [hu, I.listed, ht]
    · simp [hu, I.listed]
  · intro _ w l hl
    change s.waitList = w :: l at hl
    simp [mutexUnlock, hl]

theorem step_inv (s : State τ) (e : Event τ) (I : Inv s) (he : Enabled s e) : Inv (step s e).1 := by
  cases e with
  | lock t => exact mutex_lock_inv I he.2
  | lockSlow t next => exact mutex_lock_slow_inv next I he.2.1
  | again t next => exact again_inv next I he.2.1
  | unlock t => exact mutex_unlock_inv I he.2
  | interrupt next => exact ⟨I.le, I.free, I.one, I.listed, I.nodup, I.first⟩
  | setState t running =>
    refine ⟨I.le, I.free, I.one, I.listed, I.nodup, fun hc w l hl => ?_⟩
    -- The first waiter can only be woken.
    have hw : s.place w = .waiting := (I.listed w).mp (by rw [show s.waitList = w :: l from hl]; simp)
    show (s.cpu.setRunning t running).running w = true
    by_cases hwt : w = t
    · subst hwt
      simpa using he.resolve_left (by simp [hw])
    · rw [setRunning_of_ne _ _ hwt]
      exact I.first hc w l hl

/-! ## Every run -/

/-- What callers of the mutex rely on. -/
structure Safe (s : State τ) : Prop where
  exclusive : ∀ t u, s.place t = .holding → s.place u = .holding → t = u
  first_runs : (∀ t, s.place t ≠ .holding) → ∀ w l, s.waitList = w :: l → s.cpu.running w = true
  listed : ∀ t, s.place t = .waiting → t ∈ s.waitList

theorem mutex_safe (cpu : Cpu τ) (events : List (Event τ)) (hrun : Allowed step Enabled (mutexInit cpu) events) :
    Safe (final step (mutexInit cpu) events) := by
  have I := final_inv step_inv (mutex_init_inv cpu) hrun
  exact ⟨I.one, fun hno => I.first (I.free.mpr hno), fun t => (I.listed t).mpr⟩

theorem mutex_safe_two : Allowed step Enabled (mutexInit ⟨some false, fun _ => true⟩)
      [.lock false, .interrupt (some true), .lock true, .lockSlow true (some false), .unlock false,
        .interrupt (some true), .again true none] ∧
    Safe (final step (mutexInit ⟨some false, fun _ => true⟩)
      [.lock false, .interrupt (some true), .lock true, .lockSlow true (some false), .unlock false,
        .interrupt (some true), .again true none]) :=
  ⟨by decide, mutex_safe ⟨some false, fun _ => true⟩ _ (by decide)⟩

end Kolibri.Mutex
