import Kolibri.Posix.PipeFifo

/-! # Who wakes threads that wait for a pipe

The wake-ups take `MUTEX_WAITER.task` from the list head, which has none.
-/

namespace Kolibri.PipeThreads

open Posix Run Threads Function

variable {τ : Type*}

/-! ## What is to hold -/

/-- A thread that waits for something that is there runs, and only states of threads were set. -/
structure Awake (s : State τ) : Prop where
  readers : (∀ t, s.lock.place t ≠ .holding) → 0 < s.data.pipe.count.toNat → s.rlist ≠ [] →
    ∃ t ∈ s.rlist, s.lock.cpu.running t = true
  writers : (∀ t, s.lock.place t ≠ .holding) → s.data.pipe.count.toNat < pipeBufferSize → s.wlist ≠ [] →
    ∃ t ∈ s.wlist, s.lock.cpu.running t = true
  slots : ∀ x ∈ s.stateWrites, ∃ t, x = .slot t

/-- A writer at `.again` finds room, and no reader waits. Where it has no lock, it is left alone. -/
def Calm (s : State τ) (e : Event τ) : Prop :=
  Apart s e ∧ match e with
    | .go t _ =>
      match s.pc t with
      | .writeAgain _ => 4096 - s.data.pipe.count ≠ 0 ∧ s.rlist = []
      | _ => True
    | _ => True

/-! ## The invariant -/

/-- What a thread inside relies on. -/
def Knows (count : BitVec 32) (rlist : List τ) : Pc → Prop
  | .writeChunk _ _ | .writeAdd _ _ _ | .writeCopy _ _ _ | .writeWake _ => rlist = []
  | .readWait _ => count = 0
  | .writeWait _ => False
  | _ => True

structure Unwaited (s : State τ) : Prop where
  inv : Inv s
  knows : ∀ t, Knows s.data.pipe.count s.rlist (s.pc t)
  readers : s.rlist = [] ∨ s.data.pipe.count = 0
  writers : s.wlist = []
  slots : ∀ x ∈ s.stateWrites, ∃ t, x = .slot t

theorem Unwaited.awake {s : State τ} (h : Unwaited s) : Awake s := by
  refine ⟨fun _ hcount hrlist => ?_, fun _ _ hwlist => absurd h.writers hwlist, h.slots⟩
  rw [h.readers.resolve_left hrlist] at hcount
  cases hcount

theorem knows_of_not_busy {p : Pc} (h : p.busy = false) (count : BitVec 32) (rlist : List τ) : Knows count rlist p := by
  cases p <;> first | trivial | cases h

theorem start_unwaited (cpu : Cpu τ) (ring : Nat → BitVec 8) : Unwaited (start cpu ring) :=
  ⟨start_inv cpu ring, fun _ => trivial, .inl rfl, rfl, fun _ h => by cases h⟩

variable [DecidableEq τ] {s s' : State τ} {t : τ} {p : Pc}

theorem Unwaited.move (h : Unwaited s) (hinv : Inv s') (hpc : s'.pc = update s.pc t p)
    (hself : Knows s'.data.pipe.count s'.rlist p)
    (hother : ∀ u, u ≠ t → (s.pc u).busy = true → Knows s'.data.pipe.count s'.rlist (s.pc u))
    (hreaders : s'.rlist = [] ∨ s'.data.pipe.count = 0) (hwriters : s'.wlist = [])
    (hslots : ∀ x ∈ s'.stateWrites, ∃ t, x = .slot t) : Unwaited s' := by
  refine ⟨hinv, fun u => ?_, hreaders, hwriters, hslots⟩
  rw [hpc]
  by_cases hu : u = t
  · rw [hu, update_self]
    exact hself
  · rw [update_of_ne hu]
    cases hbusy : (s.pc u).busy with
    | true => exact hother u hu hbusy
    | false => exact knows_of_not_busy hbusy _ _

/-! ## Steps -/

omit [DecidableEq τ] in
theorem nil_of_sublist {l l' : List τ} (hl : l'.Sublist l) (h : l = []) : l' = [] := by
  subst h
  exact List.sublist_nil.mp hl

omit [DecidableEq τ] in
theorem Knows.sublist {count : BitVec 32} {l l' : List τ} (h : Knows count l p) (hl : l'.Sublist l) : Knows count l' p := by
  cases p with
  | writeChunk _ _ | writeAdd _ _ _ | writeCopy _ _ _ | writeWake _ => exact nil_of_sublist hl h
  | _ => exact h

theorem Unwaited.locking (h : Unwaited s) {next : Option τ} {cli : Bool} {locked : State τ → State τ}
    (hinv : Inv (s.locking t next cli locked))
    (hlocked : ∀ s', (locked s').pc = update s'.pc t p ∧ (locked s').data = s'.data ∧ (locked s').rlist.Sublist s'.rlist ∧
      (locked s').wlist.Sublist s'.wlist ∧ (locked s').stateWrites = s'.stateWrites) (hp : p.busy = false) :
    Unwaited (s.locking t next cli locked) := by
  unfold State.locking at hinv ⊢
  simp only at hinv ⊢
  split_ifs at hinv ⊢ with hgot
  · obtain ⟨hpc, hdata, hrlist, hwlist, hwrites⟩ := hlocked { s with lock := lockStep s.lock t next cli }
    refine h.move hinv hpc (knows_of_not_busy hp _ _) (fun u _ _ => ?_) ?_ ?_ ?_
    · rw [hdata]
      exact (h.knows u).sublist hrlist
    · rw [hdata]
      exact h.readers.imp_left (nil_of_sublist hrlist)
    · exact nil_of_sublist hwlist h.writers
    · rw [hwrites]
      exact h.slots
  · exact ⟨hinv, h.knows, h.readers, h.writers, h.slots⟩

theorem Unwaited.transfers (h : Unwaited s) (ht : Sole s t) {env : Env τ} (hinv : Inv (s.go t env))
    (hp : (s.pc t).transfers = true)
    (hself : Knows (transfer env s.data (s.pc t)).1.pipe.count s.rlist (transfer env s.data (s.pc t)).2)
    (hreaders : s.rlist = [] ∨ (transfer env s.data (s.pc t)).1.pipe.count = 0) : Unwaited (s.go t env) := by
  rw [go_transfer hp] at hinv ⊢
  exact h.move hinv rfl hself (fun u hu hbusy => absurd (.inr hbusy) (ht.other u hu)) hreaders h.writers h.slots

theorem Unwaited.goes (h : Unwaited s) (ht : Sole s t) (hinv : Inv s') (hpc : s'.pc = update s.pc t p)
    (hself : Knows s'.data.pipe.count s'.rlist p) (hdata : s'.data = s.data) (hrlist : s'.rlist = s.rlist)
    (hwlist : s'.wlist = s.wlist) (hwrites : s'.stateWrites = s.stateWrites) : Unwaited s' := by
  refine h.move hinv hpc hself (fun u hu hbusy => absurd (.inr hbusy) (ht.other u hu)) ?_ ?_ ?_
  · rw [hdata, hrlist]
    exact h.readers
  · rw [hwlist]
    exact h.writers
  · rw [hwrites]
    exact h.slots

theorem go_unwaited (h : Unwaited s) {env : Env τ} (hcalm : Calm s (.go t env)) : Unwaited (s.go t env) := by
  have hinv := go_inv h.inv hcalm.1
  have hknows := h.knows t
  cases hpc : s.pc t with
  | idle =>
    simp only [State.go, hpc]
    exact h
  | readEnter esi | writeEnter ebx =>
    simp only [State.go, hpc] at hinv ⊢
    exact h.locking hinv (fun s' => ⟨rfl, rfl, .refl _, .refl _, rfl⟩) rfl
  | readRelock esi =>
    simp only [State.go, hpc] at hinv ⊢
    exact h.locking hinv (fun s' => ⟨rfl, rfl, List.erase_sublist, .refl _, rfl⟩) rfl
  | writeRelock ebx =>
    simp only [State.go, hpc] at hinv ⊢
    exact h.locking hinv (fun s' => ⟨rfl, rfl, .refl _, List.erase_sublist, rfl⟩) rfl
  | readAgain esi =>
    have hfits := h.inv.fits t
    rw [hpc] at hfits
    refine h.transfers (h.inv.sole (.inl hfits)) hinv (by rw [hpc]; rfl) ?_ ?_ <;> rw [hpc] <;>
      rcases read_again_cases env s.data esi with heq | ⟨hempty, heq⟩ | heq <;> rw [heq]
    · trivial
    · exact hempty
    · trivial
    all_goals exact h.readers
  | writeAgain ebx =>
    obtain ⟨hapart, hroom⟩ := hcalm
    simp only [Apart, hpc] at hapart hroom
    have ht : Sole s t := by
      rcases hapart with hholding | hnone
      · exact h.inv.sole (.inl hholding)
      · refine ⟨fun u _ => hnone u, ?_⟩
        rw [hpc]
        exact h.inv.settled hnone
    refine h.transfers ht hinv (by rw [hpc]; rfl) ?_ (.inl hroom.2)
    rw [hpc]
    rcases write_again_cases env s.data ebx with heq | ⟨hfull, heq⟩ | heq <;> rw [heq]
    · trivial
    · exact absurd hfull hroom.1
    · exact hroom.2
  | readChunk ecx =>
    exact h.transfers (h.inv.busy hpc rfl).1 hinv (by rw [hpc]; rfl) (by rw [hpc]; trivial) (by rw [hpc]; exact h.readers)
  | readSub ecx esi =>
    obtain ⟨ht, -, hview⟩ := h.inv.busy hpc rfl
    refine h.transfers ht hinv (by rw [hpc]; rfl) (by rw [hpc]; trivial) (h.readers.imp_right fun hzero => ?_)
    rw [hpc]
    have hecx : ecx = 0 := by
      have hle := hview.2.1
      rw [hzero] at hle
      exact BitVec.eq_of_toNat_eq (Nat.le_zero.mp hle)
    change s.data.pipe.count - ecx = 0
    rw [hzero, hecx]
    rfl
  | readCopy ecx esi =>
    refine h.transfers (h.inv.busy hpc rfl).1 hinv (by rw [hpc]; rfl) ?_ ?_ <;> rw [hpc, transfer] <;> split_ifs
    · trivial
    · trivial
    all_goals exact h.readers
  | writeChunk ecx ebx | writeAdd ecx edi ebx =>
    rw [hpc] at hknows
    exact h.transfers (h.inv.busy hpc rfl).1 hinv (by rw [hpc]; rfl) (by rw [hpc]; exact hknows) (.inl hknows)
  | writeCopy ecx edi ebx =>
    rw [hpc] at hknows
    refine h.transfers (h.inv.busy hpc rfl).1 hinv (by rw [hpc]; rfl) ?_ (.inl hknows)
    rw [hpc, transfer]
    split_ifs <;> exact hknows
  | readWakeWriter =>
    simp only [State.go, hpc, State.readWakeWriter, h.writers, if_true] at hinv ⊢
    exact h.goes (h.inv.busy hpc rfl).1 hinv rfl trivial rfl rfl rfl rfl
  | readWakeReader =>
    simp only [State.go, hpc, State.readWakeReader, if_pos h.readers.symm] at hinv ⊢
    exact h.goes (h.inv.busy hpc rfl).1 hinv rfl trivial rfl rfl rfl rfl
  | writeWake ebx =>
    rw [hpc] at hknows
    have hnone : s.rlist = [] := hknows
    simp only [State.go, hpc, State.writeWake, hnone, h.writers, if_true, or_true] at hinv ⊢
    exact h.goes (h.inv.busy hpc rfl).1 hinv rfl trivial rfl rfl rfl rfl
  | readUnlock | readEof | writeEpipe =>
    simp only [State.go, hpc] at hinv ⊢
    exact h.goes (h.inv.busy hpc rfl).1 hinv rfl trivial rfl rfl rfl rfl
  | writeUnlock ebx =>
    simp only [State.go, hpc] at hinv ⊢
    refine h.goes (h.inv.busy hpc rfl).1 hinv rfl ?_ rfl rfl rfl rfl
    split_ifs <;> trivial
  | readWait esi =>
    have ht := (h.inv.busy hpc rfl).1
    rw [hpc] at hknows
    simp only [State.go, hpc] at hinv ⊢
    refine h.move hinv rfl trivial (fun u hu hbusy => absurd (.inr hbusy) (ht.other u hu)) (.inr hknows) h.writers ?_
    intro x hx
    rcases List.mem_cons.mp hx with rfl | hx
    · exact ⟨t, rfl⟩
    · exact h.slots x hx
  | writeWait ebx =>
    rw [hpc] at hknows
    exact hknows.elim

theorem step_unwaited (s : State τ) (e : Event τ) (h : Unwaited s) (hok : Enabled s e) (hcalm : Calm s e) :
    Unwaited (step s e).1 := by
  have hinv := step_inv s e h.inv hok hcalm.1
  cases e with
  | read t esi | write t esi =>
    exact h.move hinv rfl trivial (fun u _ _ => h.knows u) h.readers h.writers h.slots
  | go t env => exact go_unwaited h hcalm
  | interrupt next => exact ⟨hinv, h.knows, h.readers, h.writers, h.slots⟩
  | setState t running => exact ⟨hinv, h.knows, h.readers, h.writers, h.slots⟩

/-! ## Every run -/

/-- A writer never meets a full pipe or a reader that waits. -/
theorem pipe_waiters_awake (cpu : Cpu τ) (ring : Nat → BitVec 8) (es : List (Event τ))
    (hok : Allowed step Enabled (start cpu ring) es) (hcalm : Allowed step Calm (start cpu ring) es) :
    ∀ pre, pre <+: es → Awake (final step (start cpu ring) pre) := by
  rintro pre ⟨post, rfl⟩
  have hboth := allowed_and (allowed_append.mp hok).1 (allowed_append.mp hcalm).1
  have hunwaited := final_inv (fun s e h he => step_unwaited s e h he.1 he.2) (start_unwaited cpu ring) hboth
  exact hunwaited.awake

instance [Fintype τ] (s : State τ) (e : Event τ) : Decidable (Calm s e) :=
  @instDecidableAnd _ _ inferInstance <| match e with
    | .go t _ => by
      dsimp only
      generalize s.pc t = pc
      refine pc.casesOn ?_ ?_ ?_ ?_ ?_ ?_ ?_ ?_ ?_ ?_ ?_ ?_ ?_ ?_ ?_ ?_ ?_ ?_ ?_ ?_ ?_ ?_
      all_goals intros; infer_instance
    | .read .. | .write .. | .interrupt _ | .setState .. => instDecidableTrue

def readAndWait : List (Event Bool) :=
  [.write false 3] ++ List.replicate 8 (.go false copyAll) ++ [.interrupt (some true), .read true 3] ++
    List.replicate 9 (.go true copyAll) ++ [.read true 1] ++ List.replicate 3 (.go true copyAll)

theorem pipe_waiters_awake_three : Allowed step Enabled (start bothRun fun _ => 0) readAndWait ∧
    Allowed step Calm (start bothRun fun _ => 0) readAndWait ∧
    Awake (final step (start bothRun fun _ => 0) readAndWait) :=
  have hok : Allowed step Enabled (start bothRun fun _ => 0) readAndWait := by decide +kernel
  have hcalm : Allowed step Calm (start bothRun fun _ => 0) readAndWait := by decide +kernel
  ⟨hok, hcalm, pipe_waiters_awake bothRun (fun _ => 0) readAndWait hok hcalm _ List.prefix_rfl⟩

def waitAndWrite : List (Event Bool) :=
  [.read false 10] ++ List.replicate 3 (.go false { copyAll with next := some true }) ++ [.write true 1] ++
    List.replicate 8 (.go true copyAll)

/-- The byte is there, the lock is free, and the reader is still suspended. -/
theorem pipe_reader_forgotten : ¬ ∀ (cpu : Cpu Bool) ring es, Allowed step Enabled (start cpu ring) es →
    ∀ pre, pre <+: es → Awake (final step (start cpu ring) pre) := by
  intro h
  have hawake := h bothRun (fun _ => 0) waitAndWrite (by decide +kernel) _ List.prefix_rfl
  have hrun : (∀ t, (final step (start bothRun fun _ => 0) waitAndWrite).lock.place t ≠ .holding) ∧
      (final step (start bothRun fun _ => 0) waitAndWrite).data.pipe.count = 1 ∧
      (final step (start bothRun fun _ => 0) waitAndWrite).rlist = [false] ∧
      (final step (start bothRun fun _ => 0) waitAndWrite).lock.cpu.running false = false := by decide +kernel
  obtain ⟨hfree, hcount, hrlist, hsuspended⟩ := hrun
  obtain ⟨t, ht, hrunning⟩ := hawake.readers hfree (by rw [hcount]; decide) (by rw [hrlist]; decide)
  rw [hrlist, List.mem_singleton] at ht
  rw [ht, hsuspended] at hrunning
  cases hrunning

end Kolibri.PipeThreads
