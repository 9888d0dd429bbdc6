import Kolibri.Sync.Rwsem

/-! # The states of threads at a semaphore

`down_write` suspends the thread before it looks at the count, and does not take that back.
-/

namespace Kolibri.Rwsem

open Run Threads Function

variable {τ : Type*} {s : State τ} {t : τ} {next : Option τ}

/-- Holders are running, and while there are none, so is the first waiter. -/
def Runnable (s : State τ) : Prop :=
  (∀ t, s.place t = .reading ∨ s.place t = .writing → s.cpu.running t = true) ∧
    ((∀ t, ¬ Holds s t) → ∀ w l, s.waitList = w :: l → s.cpu.running w.1 = true)

/-- No `down_write` finds the semaphore free. -/
def Contended (s : State τ) : Event τ → Prop
  | .downWrite _ _ => s.count ≠ 0
  | _ => True

instance (s : State τ) : (e : Event τ) → Decidable (Contended s e)
  | .downWrite _ _ => inferInstanceAs (Decidable (_ ≠ _))
  | .downRead _ _ | .again _ _ | .resume _ | .upRead _ | .upWrite _ | .interrupt _ => inferInstanceAs (Decidable True)

variable [Fintype τ]

structure Awake (s : State τ) : Prop where
  inv : Inv s
  current : s.cpu.CanRun s.cpu.current
  holders : ∀ t, Holds s t → s.cpu.running t = true
  first : s.count = 0 → ∀ w l, s.waitList = w :: l → s.cpu.running w.1 = true

theorem Awake.runnable (A : Awake s) : Runnable s := by
  refine ⟨fun t ht => A.holders t ?_, fun hnone => A.first ?_⟩
  · rcases ht with ht | ht
    · exact .inr (.inl ht)
    · exact .inl ht
  · have hcount := A.inv.readers fun t ht => hnone t (.inl ht)
    rw [hcount, tally_eq_zero.mpr fun t ht => hnone t (.inr ht)]
    rfl

theorem Awake.running_current (A : Awake s) (hcur : s.cpu.current = some t) : s.cpu.running t = true := by
  have h := A.current
  rw [hcur] at h
  exact h

theorem init_awake (cpu : Cpu τ) (hcpu : cpu.CanRun cpu.current) : Awake (initRwsem cpu) where
  inv := init_rwsem_inv cpu
  current := hcpu
  holders t ht := by simp [Holds, Reads, initRwsem] at ht
  first _ w l hl := by cases hl

variable [DecidableEq τ]

theorem Awake.suspend (A : Awake s) (hout : s.place t = .out) (hnext : (s.cpu.setRunning t false).CanRun next)
    {s' : State τ} {k : Kind} {p : Place} (hinv : Inv s') (hp : ¬ (p = .writing ∨ Reads p))
    (hcpu : s'.cpu.current = next ∧ s'.cpu.running = (s.cpu.setRunning t false).running)
    (hplace : s'.place = update s.place t p) (hlist : s'.waitList = s.waitList ++ [(t, k)])
    (hcount : s'.count = s.count) (hwait : s.count = 0 → s.waitList ≠ []) : Awake s' := by
  have hrunning : ∀ u, u ≠ t → s'.cpu.running u = s.cpu.running u := fun u hu => by
    rw [hcpu.2, setRunning_of_ne _ _ hu]
  refine ⟨hinv, ?_, fun u hu => ?_, fun hzero w l hl => ?_⟩
  · rw [hcpu.1]
    cases next with
    | none => trivial
    | some u => exact (congrFun hcpu.2 u).trans hnext
  · have hut : u ≠ t := by
      rintro rfl
      rw [Holds, hplace, update_self] at hu
      exact hp hu
    rw [hrunning u hut]
    refine A.holders u ?_
    rwa [Holds, hplace, update_of_ne hut] at hu
  · rw [hcount] at hzero
    cases hold : s.waitList with
    | nil => exact absurd hold (hwait hzero)
    | cons w' l' =>
      rw [hlist, hold, List.cons_append] at hl
      obtain ⟨rfl, -⟩ := List.cons.inj hl
      have hwt : w'.1 ≠ t := by
        intro heq
        have hmem : (t, w'.2) ∈ s.waitList := by
          rw [hold, ← heq]
          exact List.mem_cons_self
        exact A.inv.notMem (by simp [hout]) (by simp [hout]) w'.2 hmem
      rw [hrunning _ hwt]
      exact A.first hzero w' l' hold

theorem down_read_awake (A : Awake s) (hcur : s.cpu.current = some t) (hout : s.place t = .out)
    (hnext : (s.cpu.setRunning t false).CanRun next) : Awake (downRead s t next) := by
  have hinv := down_read_inv A.inv hout hnext
  unfold downRead at hinv ⊢
  split_ifs at hinv ⊢ with hfast
  · refine ⟨hinv, A.current, fun u hu => ?_, fun hzero => ?_⟩
    · by_cases hut : u = t
      · rw [hut]
        exact A.running_current hcur
      · refine A.holders u ?_
        simpa [Holds, hut] using hu
    · have hzero : s.count + 1 = 0 := hzero
      omega
  · refine A.suspend hout hnext hinv (p := .waitingForRead) (k := .read) (by simp [Reads]) ⟨rfl, rfl⟩ rfl rfl rfl ?_
    intro hzero hnil
    exact hfast ⟨by omega, hnil⟩

theorem down_write_awake (A : Awake s) (hcur : s.cpu.current = some t) (hout : s.place t = .out)
    (hnext : (s.cpu.setRunning t false).CanRun next) (hheld : s.count ≠ 0) : Awake (downWrite s t next) := by
  have hinv := down_write_inv A.inv hcur hout hnext
  unfold downWrite forever at hinv ⊢
  rw [if_neg (by exact hheld)] at hinv ⊢
  refine A.suspend hout hnext hinv (p := .waitingForWrite) (k := .write) (by simp [Reads]) ⟨rfl, ?_⟩ rfl rfl rfl
    (fun hzero => absurd hzero hheld)
  funext u
  by_cases hu : u = t
  · simp [hu]
  · simp [hu]

theorem again_awake (A : Awake s) (hcur : s.cpu.current = some t) (ht : s.place t = .waitingForWrite)
    (hnext : (s.cpu.setRunning t false).CanRun next) : Awake (forever s t next) := by
  have hinv := again_inv A.inv hcur ht hnext
  unfold forever at hinv ⊢
  split_ifs at hinv ⊢ with hfree
  · refine ⟨hinv, A.current, fun u hu => ?_, fun hzero => ?_⟩
    · by_cases hut : u = t
      · rw [hut]
        exact A.running_current hcur
      · refine A.holders u ?_
        simpa [Holds, hut] using hu
    · cases hzero
  refine ⟨hinv, ?_, fun u hu => ?_, fun hzero => absurd hzero hfree⟩
  · cases next with
    | none => trivial
    | some u => exact hnext
  have hut : u ≠ t := by
    rintro rfl
    simp [Holds, Reads] at hu
  have hold : Holds s u := by simpa [Holds, hut] using hu
  simpa [hut] using A.holders u hold

omit [Fintype τ] in
theorem running_wake {c : Cpu τ} {w u : τ} (h : c.running u = true) : (c.setRunning w true).running u = true := by
  by_cases hu : u = w
  · simp [hu]
  · simpa [hu] using h

theorem up_read_awake (A : Awake s) (ht : s.place t = .reading) : Awake (upRead s t) := by
  have hinv := up_read_inv A.inv ht
  have hkeep : ∀ u, s.cpu.running u = true → (upRead s t).cpu.running u = true := by
    intro u hu
    unfold upRead
    dsimp only
    split
    · exact hu
    · split_ifs
      · exact running_wake hu
      · exact hu
  have hcur : (upRead s t).cpu.current = s.cpu.current := by
    unfold upRead
    dsimp only
    split
    · rfl
    · split_ifs <;> rfl
  refine ⟨hinv, ?_, fun u hu => hkeep u (A.holders u ?_), fun hzero w l hl => ?_⟩
  · rw [hcur]
    cases hc : s.cpu.current with
    | none => trivial
    | some u => exact hkeep u (A.running_current hc)
  · have hut : u ≠ t := by
      rintro rfl
      simp [Holds, Reads, upRead] at hu
    simpa [Holds, upRead, hut] using hu
  · have hl : s.waitList = w :: l := hl
    have hzero : s.count - 1 = 0 := hzero
    unfold upRead
    simp only [hl]
    rw [if_pos hzero, setRunning_self]

omit [Fintype τ] in
theorem holds_up_write {u : τ} (hu : Holds (upWrite s t) u) :
    (Holds s u ∧ u ≠ t) ∨ (upWrite s t).cpu.running u = true := by
  unfold upWrite at hu ⊢
  dsimp only at hu ⊢
  split at hu
  · left
    by_cases hut : u = t
    · simp [Holds, Reads, hut] at hu
    · exact ⟨by simpa [Holds, hut] using hu, hut⟩
  · left
    by_cases hut : u = t
    · simp [Holds, Reads, hut] at hu
    · exact ⟨by simpa [Holds, hut] using hu, hut⟩
  · by_cases hwoken : u ∈ (leadingReaders s.waitList).1
    · right
      simp [hwoken]
    left
    by_cases hut : u = t
    · simp [Holds, Reads, hwoken, hut] at hu
      simp [← hut, hwoken] at hu
    · exact ⟨by simpa [Holds, hwoken, hut] using hu, hut⟩

theorem up_write_awake (A : Awake s) (ht : s.place t = .writing) : Awake (upWrite s t) := by
  have hinv := up_write_inv A.inv ht
  have hkeep : ∀ u, s.cpu.running u = true → (upWrite s t).cpu.running u = true := by
    intro u hu
    unfold upWrite
    dsimp only
    split
    · exact hu
    · exact running_wake hu
    · simp [hu]
  have hcur : (upWrite s t).cpu.current = s.cpu.current := by
    unfold upWrite
    dsimp only
    split <;> rfl
  refine ⟨hinv, ?_, fun u hu => ?_, fun hzero w l hl => ?_⟩
  · rw [hcur]
    cases hc : s.cpu.current with
    | none => trivial
    | some u => exact hkeep u (A.running_current hc)
  · rcases holds_up_write hu with ⟨hold, -⟩ | hrun
    · exact hkeep u (A.holders u hold)
    · exact hrun
  · unfold upWrite at hzero hl ⊢
    dsimp only at hzero hl ⊢
    split at hl
    · rename_i hnil
      simp [hnil] at hl
    · rename_i w' _ hwait
      have hl : s.waitList = w :: l := hl
      rw [hwait] at hl
      obtain ⟨rfl, -⟩ := List.cons.inj hl
      simp
    · -- at least the first of them was let in
      rename_i w' l' hwait
      simp [hwait, leadingReaders] at hzero
      omega

/-! ## Every run -/

theorem step_awake (s : State τ) (e : Event τ) (A : Awake s) (he : Enabled s e) (hc : Contended s e) :
    Awake (step s e).1 := by
  cases e with
  | downRead t next => exact down_read_awake A he.1 he.2.1 he.2.2
  | downWrite t next => exact down_write_awake A he.1 he.2.1 he.2.2 hc
  | again t next => exact again_awake A he.1 he.2.1 he.2.2
  | resume t =>
    have hinv := step_inv s (.resume t) A.inv he
    refine ⟨hinv, A.current, fun u hu => ?_, A.first⟩
    by_cases hut : u = t
    · rw [hut]
      exact A.running_current he.1
    · refine A.holders u ?_
      simpa [step, Holds, hut] using hu
  | upRead t => exact up_read_awake A he.2
  | upWrite t => exact up_write_awake A he.2
  | interrupt next => exact ⟨step_inv s (.interrupt next) A.inv he, he.2, A.holders, A.first⟩

theorem step_not_runnable (s : State τ) (e : Event τ) (hc : ¬ Contended s e) : ¬ Runnable (step s e).1 := by
  cases e with
  | downWrite t next =>
    have hfree : s.count = 0 := not_not.mp hc
    rintro ⟨hholders, -⟩
    have hrun := hholders t (.inr (by simp [step, downWrite, forever, hfree]))
    simp [step, downWrite, forever, hfree] at hrun
  | downRead t next => exact absurd trivial hc
  | again t next => exact absurd trivial hc
  | resume t => exact absurd trivial hc
  | upRead t => exact absurd trivial hc
  | upWrite t => exact absurd trivial hc
  | interrupt next => exact absurd trivial hc

/-- Holders and the next waiter are running exactly if no `down_write` finds the semaphore free. -/
theorem rwsem_runnable_iff (cpu : Cpu τ) (hcpu : cpu.CanRun cpu.current) (events : List (Event τ))
    (hrun : Allowed step Enabled (initRwsem cpu) events) :
    (∀ pre, pre <+: events → Runnable (final step (initRwsem cpu) pre)) ↔
      Allowed step Contended (initRwsem cpu) events :=
  forall_prefix_iff step_awake (fun _ A => A.runnable) (fun s e _ _ => step_not_runnable s e) (init_awake cpu hcpu) hrun

theorem rwsem_runnable_three : Allowed step Enabled (initRwsem ⟨some 0, fun _ => true⟩) contendedRun ∧
    ∀ pre, pre <+: contendedRun → Runnable (final step (initRwsem ⟨some (0 : Fin 3), fun _ => true⟩) pre) :=
  have hrun := by decide
  ⟨hrun, (rwsem_runnable_iff ⟨some 0, fun _ => true⟩ rfl contendedRun hrun).mpr (by decide)⟩

/-- One thread alone, which takes a free semaphore for writing. -/
theorem rwsem_suspends_holder :
    ¬ ∀ events : List (Event (Fin 1)), Allowed step Enabled (initRwsem ⟨some 0, fun _ => true⟩) events →
      Runnable (final step (initRwsem ⟨some 0, fun _ => true⟩) events) := by
  intro hall
  have hrun := (hall [.downWrite 0 none] (by decide)).1 0 (.inr (by decide))
  exact absurd hrun (by decide)

end Kolibri.Rwsem
